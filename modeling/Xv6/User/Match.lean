import Mathlib.Computability.Language
import Xv6.Library.Bytes

/-!
# The regular expression matcher of `grep`

`match`, `matchhere` and `matchstar` of `grep.c` on strings given by their bytes before the
terminating zero, so that the byte behind the last one is tested as the end of the list.

A pattern is read as a sequence of items with an anchor at either side, and the language of the
items is the product of the languages of each. `match` finds out whether the text has a part in
that language where the anchors allow it.
-/

namespace Xv6

namespace Grep

open Bytes (Byte)
open Computability

def caret : Byte := 0x5E

def dollar : Byte := 0x24

def dot : Byte := 0x2E

def star : Byte := 0x2A

/-- `matchstar`: search for `c*re` at the beginning of the text, with the test of `matchhere` for
`re`. -/
def matchstar (here : List Byte → Bool) (c : Byte) : List Byte → Bool
  | [] => here []
  | x :: text =>
    if here (x :: text) then true
    else if x = c ∨ c = dot then matchstar here c text
    else false

def oneThen (here : List Byte → Bool) (c : Byte) : List Byte → Bool
  | [] => false
  | x :: text => if c = dot ∨ c = x then here text else false

def matchhere : List Byte → List Byte → Bool
  | [], _ => true
  | [c], text => if c = dollar then text.isEmpty else oneThen (matchhere []) c text
  | c :: d :: re, text =>
    if d = star then matchstar (matchhere re) c text else oneThen (matchhere (d :: re)) c text

def matchLoop (re : List Byte) : List Byte → Bool
  | [] => matchhere re []
  | x :: text => if matchhere re (x :: text) then true else matchLoop re text

def matchText (re text : List Byte) : Bool :=
  match re with
  | [] => matchLoop [] text
  | c :: re => if c = caret then matchhere re text else matchLoop (c :: re) text

/-- What one character of a pattern stands for. -/
inductive Atom where
  | any
  | char (c : Byte)

namespace Atom

def ofByte (c : Byte) : Atom := if c = dot then any else char c

def Accepts : Atom → Byte → Prop
  | any, _ => True
  | char c, x => c = x

def language (atom : Atom) : Language Byte := {word | ∃ x, atom.Accepts x ∧ word = [x]}

end Atom

/-- A part of a pattern. -/
inductive Item where
  | one (atom : Atom)
  | many (atom : Atom)

def Item.language : Item → Language Byte
  | .one atom => atom.language
  | .many atom => atom.language∗

structure Pattern where
  atStart : Bool
  items : List Item
  atEnd : Bool

namespace Pattern

def language (pattern : Pattern) : Language Byte := (pattern.items.map Item.language).prod

def cons (item : Item) (pattern : Pattern) : Pattern :=
  { pattern with items := item :: pattern.items }

/-- A pattern behind its anchor: a character and a star, a last `'$'`, or one character. -/
def parseItems : List Byte → Pattern
  | [] => ⟨false, [], false⟩
  | [c] => if c = dollar then ⟨false, [], true⟩ else ⟨false, [.one (.ofByte c)], false⟩
  | c :: d :: re =>
    if d = star then (parseItems re).cons (.many (.ofByte c))
    else (parseItems (d :: re)).cons (.one (.ofByte c))

def parse : List Byte → Pattern
  | [] => parseItems []
  | c :: re =>
    if c = caret then { parseItems re with atStart := true } else parseItems (c :: re)

def Occurs (pattern : Pattern) (text : List Byte) : Prop :=
  ∃ before word after, text = before ++ word ++ after ∧ word ∈ pattern.language ∧
    (pattern.atStart → before = []) ∧ (pattern.atEnd → after = [])

/-- The text starts with a word of the language, and ends with it if the pattern says so. -/
def Begins (pattern : Pattern) (text : List Byte) : Prop :=
  ∃ word after, text = word ++ after ∧ word ∈ pattern.language ∧ (pattern.atEnd → after = [])

end Pattern

variable {re text : List Byte} {c : Byte} {pattern : Pattern} {atom : Atom}

theorem accepts_ofByte {x : Byte} : (Atom.ofByte c).Accepts x ↔ c = dot ∨ c = x := by
  unfold Atom.ofByte
  split
  · next same => simp [Atom.Accepts, same]
  · next other => simp [Atom.Accepts, other]

theorem mem_kstar_atom {word : List Byte} :
    word ∈ atom.language∗ ↔ ∀ x ∈ word, atom.Accepts x := by
  rw [Language.mem_kstar]
  constructor
  · rintro ⟨parts, rfl, all⟩ x member
    obtain ⟨part, inside, holds⟩ := List.mem_flatten.mp member
    obtain ⟨y, accepted, rfl⟩ := all part inside
    rwa [List.mem_singleton.mp holds]
  · intro all
    refine ⟨word.map fun x => [x], ?_, fun part member => ?_⟩
    · rw [← List.flatMap_def, List.flatMap_singleton']
    · obtain ⟨x, inside, rfl⟩ := List.mem_map.mp member
      exact ⟨x, all x inside, rfl⟩

theorem language_cons (item : Item) :
    (pattern.cons item).language = item.language * pattern.language := rfl

theorem begins_cons {item : Item} : (pattern.cons item).Begins text ↔
    ∃ word rest, text = word ++ rest ∧ word ∈ item.language ∧ pattern.Begins rest := by
  constructor
  · rintro ⟨word, after, rfl, member, final⟩
    rw [language_cons, Language.mem_mul] at member
    obtain ⟨first, inItem, second, inRest, rfl⟩ := member
    exact ⟨first, second ++ after, List.append_assoc .., inItem, second, after, rfl, inRest, final⟩
  · rintro ⟨first, rest, rfl, inItem, second, after, rfl, inRest, final⟩
    refine ⟨first ++ second, after, (List.append_assoc ..).symm, ?_, final⟩
    rw [language_cons]
    exact Language.mem_mul.mpr ⟨first, inItem, second, inRest, rfl⟩

theorem begins_one : (pattern.cons (.one atom)).Begins text ↔
    ∃ x rest, text = x :: rest ∧ atom.Accepts x ∧ pattern.Begins rest := by
  rw [begins_cons]
  constructor
  · rintro ⟨word, rest, rfl, ⟨x, accepted, rfl⟩, begins⟩
    exact ⟨x, rest, rfl, accepted, begins⟩
  · rintro ⟨x, rest, rfl, accepted, begins⟩
    exact ⟨[x], rest, rfl, ⟨x, accepted, rfl⟩, begins⟩

variable {here : List Byte → Bool}

theorem matchstar_iff : matchstar here c text = true ↔
    ∃ word rest, text = word ++ rest ∧ (∀ x ∈ word, (Atom.ofByte c).Accepts x) ∧
      here rest = true := by
  induction text with
  | nil =>
    rw [matchstar]
    constructor
    · intro found
      exact ⟨[], [], rfl, nofun, found⟩
    · rintro ⟨word, rest, split, -, found⟩
      rwa [(List.append_eq_nil_iff.mp split.symm).2] at found
  | cons x text ih =>
    rw [matchstar]
    constructor
    · intro found
      split at found
      · next now => exact ⟨[], x :: text, rfl, nofun, now⟩
      · split at found
        · next accepted =>
          obtain ⟨word, rest, rfl, all, later⟩ := ih.mp found
          refine ⟨x :: word, rest, rfl, ?_, later⟩
          exact List.forall_mem_cons.mpr ⟨accepts_ofByte.mpr (accepted.symm.imp id Eq.symm), all⟩
        · cases found
    · rintro ⟨word, rest, split, all, later⟩
      cases word with
      | nil =>
        rw [List.nil_append] at split
        rw [split, if_pos later]
      | cons y word =>
        obtain ⟨rfl, rfl⟩ := List.cons.inj split
        obtain ⟨first, others⟩ := List.forall_mem_cons.mp all
        have accepted := (accepts_ofByte.mp first).symm.imp Eq.symm id
        rw [if_pos accepted, ih.mpr ⟨word, rest, rfl, others, later⟩]
        exact ite_self _

theorem begins_nil {atStart : Bool} : Pattern.Begins ⟨atStart, [], false⟩ text :=
  ⟨[], text, rfl, rfl, nofun⟩

theorem begins_end : Pattern.Begins ⟨false, [], true⟩ text ↔ text = [] := by
  constructor
  · rintro ⟨word, after, rfl, empty, final⟩
    rw [final rfl, List.append_nil]
    exact empty
  · rintro rfl
    exact ⟨[], [], rfl, rfl, fun _ => rfl⟩

theorem oneThen_iff (rest : ∀ text, here text = true ↔ pattern.Begins text) :
    oneThen here c text = true ↔ (pattern.cons (.one (.ofByte c))).Begins text := by
  rw [begins_one]
  cases text with
  | nil => exact iff_of_false nofun fun ⟨_, _, split, _⟩ => nomatch split
  | cons x text =>
    rw [oneThen]
    constructor
    · intro found
      by_cases accepted : c = dot ∨ c = x
      · rw [if_pos accepted] at found
        exact ⟨x, text, rfl, accepts_ofByte.mpr accepted, (rest text).mp found⟩
      · rw [if_neg accepted] at found
        cases found
    · rintro ⟨y, after, split, accepted, begins⟩
      obtain ⟨rfl, rfl⟩ := List.cons.inj split
      rw [if_pos (accepts_ofByte.mp accepted)]
      exact (rest text).mpr begins

theorem matchhere_iff : matchhere re text = true ↔ (Pattern.parseItems re).Begins text := by
  induction re using Pattern.parseItems.induct generalizing text with
  | case1 => exact iff_of_true rfl begins_nil
  | case2 =>
    rw [matchhere, if_pos rfl, Pattern.parseItems, if_pos rfl, begins_end, List.isEmpty_iff]
  | case3 c other =>
    rw [matchhere, if_neg other, Pattern.parseItems, if_neg other]
    exact oneThen_iff fun _ => iff_of_true rfl begins_nil
  | case4 c re ih =>
    rw [matchhere, if_pos rfl, matchstar_iff, Pattern.parseItems, if_pos rfl, begins_cons]
    refine exists_congr fun word => exists_congr fun rest => and_congr_right fun _ => ?_
    exact and_congr mem_kstar_atom.symm ih
  | case5 c d re other ih =>
    rw [matchhere, if_neg other, Pattern.parseItems, if_neg other]
    exact oneThen_iff fun _ => ih

theorem matchLoop_iff : matchLoop re text = true ↔
    ∃ before rest, text = before ++ rest ∧ (Pattern.parseItems re).Begins rest := by
  induction text with
  | nil =>
    rw [matchLoop, matchhere_iff]
    constructor
    · intro begins
      exact ⟨[], [], rfl, begins⟩
    · rintro ⟨before, rest, split, begins⟩
      rwa [(List.append_eq_nil_iff.mp split.symm).2] at begins
  | cons x text ih =>
    rw [matchLoop]
    constructor
    · intro found
      by_cases now : matchhere re (x :: text) = true
      · exact ⟨[], x :: text, rfl, matchhere_iff.mp now⟩
      · rw [if_neg now] at found
        obtain ⟨before, rest, rfl, begins⟩ := ih.mp found
        exact ⟨x :: before, rest, rfl, begins⟩
    · rintro ⟨before, rest, split, begins⟩
      cases before with
      | nil =>
        rw [List.nil_append] at split
        rw [split, if_pos (matchhere_iff.mpr begins)]
      | cons y before =>
        obtain ⟨rfl, rfl⟩ := List.cons.inj split
        rw [ih.mpr ⟨before, rest, rfl, begins⟩, ite_self]

theorem atStart_parseItems (re : List Byte) : (Pattern.parseItems re).atStart = false := by
  induction re using Pattern.parseItems.induct with
  | case1 => rfl
  | case2 => rfl
  | case3 c other => rw [Pattern.parseItems, if_neg other]
  | case4 c re ih => rwa [Pattern.parseItems, if_pos rfl]
  | case5 c d re other ih => rwa [Pattern.parseItems, if_neg other]

theorem occurs_of_free (free : pattern.atStart = false) : pattern.Occurs text ↔
    ∃ before rest, text = before ++ rest ∧ pattern.Begins rest := by
  constructor
  · rintro ⟨before, word, after, rfl, member, -, final⟩
    exact ⟨before, word ++ after, List.append_assoc .., word, after, rfl, member, final⟩
  · rintro ⟨before, rest, rfl, word, after, rfl, member, final⟩
    exact ⟨before, word, after, (List.append_assoc ..).symm, member,
      fun anchored => absurd anchored (by rw [free]; nofun), final⟩

theorem occurs_of_anchored :
    Pattern.Occurs { pattern with atStart := true } text ↔ pattern.Begins text := by
  constructor
  · rintro ⟨before, word, after, rfl, member, first, final⟩
    rw [first rfl, List.nil_append]
    exact ⟨word, after, rfl, member, final⟩
  · rintro ⟨word, after, rfl, member, final⟩
    exact ⟨[], word, after, rfl, member, fun _ => rfl, final⟩

/-- `match` returns 1 exactly when a part of the text is in the language of the pattern, at the
start of the text for a leading `'^'` and at its end for a last `'$'`. -/
theorem matchText_iff (re text : List Byte) :
    matchText re text = true ↔ (Pattern.parse re).Occurs text := by
  cases re with
  | nil =>
    exact matchLoop_iff.trans (occurs_of_free rfl).symm
  | cons c re =>
    rw [matchText, Pattern.parse]
    by_cases anchored : c = caret
    · rw [if_pos anchored, if_pos anchored, matchhere_iff, occurs_of_anchored]
    · rw [if_neg anchored, if_neg anchored, matchLoop_iff,
        occurs_of_free (atStart_parseItems (c :: re))]

end Grep

end Xv6
