import Mathlib.Data.List.TakeWhile
import Xv6.Shell.Parser

/-!
# The tokens of a command line

The tokens of a line are what `gettoken` gives from its start until the end of the string. They
cover every character that is not blank, and a word is a longest run of ordinary characters.
`peek` answers by the first of the tokens that are left, and neither it nor the blanks it skips
change them.
-/

namespace Xv6

def TokenKind.first : TokenKind → Option UInt8
  | .bar => some 0x7C
  | .lparen => some 0x28
  | .rparen => some 0x29
  | .semi => some 0x3B
  | .amp => some 0x26
  | .less => some 0x3C
  | .greater | .append => some 0x3E
  | .eof | .word => none

def startsWith (toks : List UInt8) : List Token → Bool
  | [] => false
  | t :: _ => t.kind.first.any toks.contains

theorem takeWhile_stops {α : Type} (test : α → Bool) (list : List α)
    (more : (list.takeWhile test).length < list.length) :
    test (list.get ⟨(list.takeWhile test).length, more⟩) = false := by
  induction list with
  | nil => simp at more
  | cons first rest ih =>
    cases passes : test first with
    | false => simp [passes]
    | true =>
      have shorter : (rest.takeWhile test).length < rest.length := by
        simpa [List.takeWhile_cons, passes] using more
      simpa [List.takeWhile_cons, passes] using ih shorter

theorem takeWhile_passes {α : Type} (test : α → Bool) (list : List α) {i : Nat}
    (inside : i < (list.takeWhile test).length) :
    ∃ bound : i < list.length, test (list.get ⟨i, bound⟩) = true := by
  have bound : i < list.length := Nat.lt_of_lt_of_le inside (List.takeWhile_prefix test).length_le
  refine ⟨bound, ?_⟩
  have same : (list.takeWhile test).get ⟨i, inside⟩ = list.get ⟨i, bound⟩ :=
    (List.takeWhile_prefix test).getElem inside
  rw [← same]
  exact List.mem_takeWhile_imp (List.get_mem _ _)

theorem mem_symbols_of_ofSymbol {c : UInt8} (absent : TokenKind.ofSymbol c = none) :
    c ∉ symbols := by
  simp only [TokenKind.ofSymbol] at absent
  simp only [symbols, List.mem_cons, List.not_mem_nil, or_false, not_or]
  grind -ring -linarith -lia

theorem first_of_ofSymbol {c : UInt8} {kind : TokenKind}
    (found : TokenKind.ofSymbol c = some kind) :
    kind.first = some c ∧ kind ≠ .eof ∧ kind ≠ .word ∧ (kind = .greater → c = 0x3E) := by
  simp only [TokenKind.ofSymbol] at found
  grind -ring -linarith -lia [TokenKind.first]

namespace CString

variable (s : CString) {p q : Nat}

theorem char_eq (inside : p < s.chars.length) : s.char p = s.chars.get ⟨p, inside⟩ := by
  unfold char
  rw [List.getD_eq_getElem?_getD, List.getElem?_eq_getElem inside]
  rfl

theorem char_eq_zero_iff : s.char p = 0 ↔ s.chars.length ≤ p := by
  constructor
  · intro zero
    by_contra inside
    have inside : p < s.chars.length := by omega
    rw [s.char_eq inside] at zero
    exact s.terminated (zero ▸ List.get_mem _ _)
  · intro past
    unfold char
    rw [List.getD_eq_getElem?_getD, List.getElem?_eq_none past]
    rfl

theorem run_stops (test : UInt8 → Bool) (more : p + ((s.chars.drop p).takeWhile test).length <
    s.chars.length) : test (s.char (p + ((s.chars.drop p).takeWhile test).length)) = false := by
  have inside : ((s.chars.drop p).takeWhile test).length < (s.chars.drop p).length := by
    rw [List.length_drop]
    omega
  have stops := takeWhile_stops test (s.chars.drop p) inside
  rw [s.char_eq more]
  simpa [List.getElem_drop] using stops

theorem run_passes (test : UInt8 → Bool) {i : Nat} (low : p ≤ i)
    (high : i < p + ((s.chars.drop p).takeWhile test).length) :
    i < s.chars.length ∧ test (s.char i) = true := by
  obtain ⟨bound, passes⟩ := takeWhile_passes test (s.chars.drop p) (i := i - p) (by omega)
  rw [List.length_drop] at bound
  have inside : i < s.chars.length := by omega
  refine ⟨inside, ?_⟩
  rw [s.char_eq inside]
  have index : p + (i - p) = i := by omega
  simpa [List.getElem_drop, index] using passes

theorem run_le (test : UInt8 → Bool) (low : p ≤ s.chars.length) :
    p + ((s.chars.drop p).takeWhile test).length ≤ s.chars.length := by
  have shorter := (List.takeWhile_prefix test (l := s.chars.drop p)).length_le
  rw [List.length_drop] at shorter
  omega

theorem le_skip : p ≤ s.skip p := Nat.le_add_right _ _

theorem skip_le (inside : p ≤ s.chars.length) : s.skip p ≤ s.chars.length := s.run_le _ inside

theorem skip_not_blank (inside : s.skip p < s.chars.length) :
    whitespace.contains (s.char (s.skip p)) = false := s.run_stops _ inside

theorem skip_skip : s.skip (s.skip p) = s.skip p := by
  have none : ((s.chars.drop (s.skip p)).takeWhile whitespace.contains).length = 0 := by
    by_contra some
    obtain ⟨inside, blank⟩ := s.run_passes whitespace.contains (p := s.skip p) (i := s.skip p)
      le_rfl (by omega)
    rw [s.skip_not_blank inside] at blank
    cases blank
  show s.skip p + _ = s.skip p
  rw [none, Nat.add_zero]

theorem tokenAt_eof (zero : s.char q = 0) : s.tokenAt q = ⟨.eof, q, q⟩ := if_pos zero

theorem tokenAt_spec (inside : s.char q ≠ 0) (full : whitespace.contains (s.char q) = false) :
    (s.tokenAt q).kind ≠ .eof ∧ (s.tokenAt q).span.start = q ∧ q < (s.tokenAt q).span.stop ∧
    (s.tokenAt q).span.stop ≤ s.chars.length ∧
    (((s.tokenAt q).kind ≠ .word ∧ (s.tokenAt q).kind.first = some (s.char q)) ∨
      ((s.tokenAt q).kind = .word ∧ s.char q ∉ symbols ∧
        (s.tokenAt q).span.stop = s.skipWord q)) := by
  have bound : q < s.chars.length := by
    have low := mt s.char_eq_zero_iff.mpr inside
    omega
  unfold tokenAt
  rw [if_neg inside]
  cases found : TokenKind.ofSymbol (s.char q) with
  | none =>
    have other := mem_symbols_of_ofSymbol found
    have first : ordinary (s.char q) = true := by
      have absent : symbols.contains (s.char q) = false := by simpa using other
      simp only [ordinary, full, absent]
      rfl
    have stop : q < s.skipWord q := by
      by_contra none
      have le : q ≤ s.skipWord q := Nat.le_add_right _ _
      have here : s.skipWord q = q := by omega
      have stops := s.run_stops ordinary (p := q) (by
        show s.skipWord q < _
        rw [here]
        exact bound)
      rw [show q + ((s.chars.drop q).takeWhile ordinary).length = q from here, first] at stops
      cases stops
    exact ⟨by nofun, rfl, stop, s.run_le _ (by omega), .inr ⟨rfl, other, rfl⟩⟩
  | some kind =>
    obtain ⟨first, notEof, notWord, isGreater⟩ := first_of_ofSymbol found
    by_cases greater : kind = .greater
    · have char := isGreater greater
      subst greater
      simp only
      split
      case isTrue second =>
        have next : q + 1 < s.chars.length := by
          by_contra past
          rw [s.char_eq_zero_iff.mpr (by omega)] at second
          exact absurd second (by decide)
        exact ⟨by nofun, rfl, by show q < q + 2; omega, next, .inl ⟨by nofun, by
          rw [char]; rfl⟩⟩
      case isFalse =>
        exact ⟨by nofun, rfl, by show q < q + 1; omega, bound, .inl ⟨by nofun, by
          rw [char]; rfl⟩⟩
    · have plain : s.tokenAt q = ⟨kind, q, q + 1⟩ := by
        unfold tokenAt
        rw [if_neg inside, found]
        cases kind <;> first | rfl | exact absurd rfl greater
      have shape := plain
      unfold tokenAt at shape
      rw [if_neg inside, found] at shape
      rw [shape]
      exact ⟨notEof, rfl, by show q < q + 1; omega, bound, .inl ⟨notWord, first⟩⟩

theorem gettoken_eof_iff : (s.gettoken p).1.kind = .eof ↔ s.char (s.skip p) = 0 := by
  constructor
  · intro eof
    by_contra inside
    have bound : s.skip p < s.chars.length := by
      have low := mt s.char_eq_zero_iff.mpr inside
      omega
    exact (s.tokenAt_spec inside (s.skip_not_blank bound)).1 eof
  · intro zero
    show (s.tokenAt (s.skip p)).kind = .eof
    rw [s.tokenAt_eof zero]

theorem gettoken_bounds (some : (s.gettoken p).1.kind ≠ .eof) :
    p < (s.gettoken p).2 ∧ (s.gettoken p).2 ≤ s.chars.length := by
  have inside := mt s.gettoken_eof_iff.mpr some
  have bound : s.skip p < s.chars.length := by
    have low := mt s.char_eq_zero_iff.mpr inside
    omega
  obtain ⟨_, _, longer, stops, _⟩ := s.tokenAt_spec inside (s.skip_not_blank bound)
  have low := s.le_skip (p := p)
  have next := s.le_skip (p := (s.tokenAt (s.skip p)).span.stop)
  refine ⟨?_, s.skip_le stops⟩
  show p < s.skip (s.tokenAt (s.skip p)).span.stop
  omega

def tokens (p : Nat) : List Token :=
  if (s.gettoken p).1.kind = .eof then [] else (s.gettoken p).1 :: tokens (s.gettoken p).2
termination_by s.chars.length - p
decreasing_by
  have bounds := s.gettoken_bounds (p := p) (by assumption)
  omega

theorem tokens_eof (eof : (s.gettoken p).1.kind = .eof) : s.tokens p = [] := by
  rw [tokens, if_pos eof]

theorem tokens_cons (some : (s.gettoken p).1.kind ≠ .eof) :
    s.tokens p = (s.gettoken p).1 :: s.tokens (s.gettoken p).2 := by
  rw [tokens, if_neg some]

theorem tokens_skip : s.tokens (s.skip p) = s.tokens p := by
  have same : s.gettoken (s.skip p) = s.gettoken p := by
    unfold gettoken
    rw [skip_skip]
  rw [tokens, same, ← tokens]

theorem gettoken_of_cons {t : Token} {ts : List Token} (shape : s.tokens p = t :: ts) :
    (s.gettoken p).1 = t ∧ t.kind ≠ .eof ∧ s.tokens (s.gettoken p).2 = ts ∧
      (s.gettoken p).2 ≤ s.chars.length := by
  by_cases eof : (s.gettoken p).1.kind = .eof
  · rw [s.tokens_eof eof] at shape
    cases shape
  · rw [s.tokens_cons eof] at shape
    cases shape
    exact ⟨rfl, eof, rfl, (s.gettoken_bounds eof).2⟩

theorem gettoken_of_nil (shape : s.tokens p = []) : (s.gettoken p).1.kind = .eof := by
  by_contra some
  rw [s.tokens_cons some] at shape
  cases shape

theorem tokens_nil_iff (inside : p ≤ s.chars.length) :
    s.tokens p = [] ↔ s.skip p = s.chars.length := by
  have le := s.skip_le inside
  constructor
  · intro shape
    have zero := s.gettoken_eof_iff.mp (s.gettoken_of_nil shape)
    have past := s.char_eq_zero_iff.mp zero
    omega
  · intro ends
    apply s.tokens_eof
    exact s.gettoken_eof_iff.mpr (s.char_eq_zero_iff.mpr (by omega))

theorem tokens_length : (s.tokens p).length ≤ s.chars.length - p := by
  induction p using tokens.induct s with
  | case1 p eof =>
    rw [s.tokens_eof eof]
    exact Nat.zero_le _
  | case2 p some ih =>
    have bounds := s.gettoken_bounds some
    rw [s.tokens_cons some, List.length_cons]
    omega

theorem tokens_lt_turns : (s.tokens p).length < s.turns p := by
  have length := s.tokens_length (p := p)
  unfold turns
  omega

theorem peek_eq {toks : List UInt8} (known : ∀ c ∈ toks, c ∈ symbols) :
    s.peek p toks = (startsWith toks (s.tokens p), s.skip p) := by
  refine Prod.ext ?_ rfl
  show (s.char (s.skip p) != 0 && toks.contains (s.char (s.skip p))) = _
  by_cases zero : s.char (s.skip p) = 0
  · rw [s.tokens_eof (s.gettoken_eof_iff.mpr zero), zero]
    rfl
  · have bound : s.skip p < s.chars.length := by
      have low := mt s.char_eq_zero_iff.mpr zero
      omega
    obtain ⟨_, _, _, _, shape⟩ := s.tokenAt_spec zero (s.skip_not_blank bound)
    rw [s.tokens_cons (mt s.gettoken_eof_iff.mp zero)]
    have goes : (s.char (s.skip p) != 0) = true := by simpa using zero
    rw [goes, Bool.true_and]
    show _ = (s.tokenAt (s.skip p)).kind.first.any toks.contains
    rcases shape with ⟨_, first⟩ | ⟨word, other, _⟩
    · rw [first]
      rfl
    · rw [word]
      have absent : toks.contains (s.char (s.skip p)) = false := by
        simpa using fun member => other (known _ member)
      rw [absent]
      rfl

theorem tokens_cover {i : Nat} (low : p ≤ i) (high : i < s.chars.length)
    (full : whitespace.contains (s.char i) = false) :
    ∃ t ∈ s.tokens p, t.span.start ≤ i ∧ i < t.span.stop := by
  induction p using tokens.induct s with
  | case1 p eof =>
    have past := s.char_eq_zero_iff.mp (s.gettoken_eof_iff.mp eof)
    obtain ⟨_, blank⟩ := s.run_passes whitespace.contains low (show i < s.skip p by omega)
    rw [full] at blank
    cases blank
  | case2 p some ih =>
    rw [s.tokens_cons some]
    by_cases later : (s.gettoken p).2 ≤ i
    · obtain ⟨t, member, span⟩ := ih later
      exact ⟨t, List.mem_cons_of_mem _ member, span⟩
    · refine ⟨_, List.mem_cons_self, ?_⟩
      have inside := mt s.gettoken_eof_iff.mpr some
      have bound : s.skip p < s.chars.length := by
        have low := mt s.char_eq_zero_iff.mpr inside
        omega
      obtain ⟨_, start, _, _, _⟩ := s.tokenAt_spec inside (s.skip_not_blank bound)
      have before : s.skip p ≤ i := by
        by_contra early
        obtain ⟨_, blank⟩ := s.run_passes whitespace.contains low (show i < s.skip p by omega)
        rw [full] at blank
        cases blank
      have next : i < (s.tokenAt (s.skip p)).span.stop := by
        by_contra past
        have inBlanks : i < s.skip (s.tokenAt (s.skip p)).span.stop := by
          have out : i < (s.gettoken p).2 := by omega
          exact out
        obtain ⟨_, blank⟩ := s.run_passes whitespace.contains (by omega) inBlanks
        rw [full] at blank
        cases blank
      refine ⟨?_, next⟩
      show (s.tokenAt (s.skip p)).span.start ≤ i
      omega

theorem spelling_ofSymbol {c : UInt8} {kind : TokenKind}
    (symbol : TokenKind.ofSymbol c = some kind) : kind.spelling = [c] := by
  unfold TokenKind.ofSymbol at symbol
  repeat' split at symbol
  all_goals first
    | (cases symbol; rename_i same; rw [same]; rfl)
    | cases symbol

theorem tokenAt_symbol {q : Nat} (symbol : (s.tokenAt q).kind ≠ .word) :
    (List.range ((s.tokenAt q).span.stop - (s.tokenAt q).span.start)).map
        (fun i => s.char ((s.tokenAt q).span.start + i)) = (s.tokenAt q).kind.spelling ∧
      ((s.tokenAt q).kind = .greater → s.char (s.tokenAt q).span.stop ≠ 0x3E) := by
  have one : ∀ {kind}, TokenKind.ofSymbol (s.char q) = some kind →
      (List.range (q + 1 - q)).map (fun i => s.char (q + i)) = kind.spelling := by
    intro kind found
    rw [spelling_ofSymbol found, Nat.add_sub_cancel_left]
    rfl
  unfold tokenAt at symbol ⊢
  split
  · rw [Nat.sub_self]
    exact ⟨rfl, by rintro ⟨⟩⟩
  · split
    · rename_i found
      split
      · rename_i twice
        have first : [s.char q] = TokenKind.greater.spelling := (spelling_ofSymbol found).symm
        refine ⟨?_, by rintro ⟨⟩⟩
        rw [Nat.add_sub_cancel_left]
        show [s.char q, s.char (q + 1)] = _
        rw [twice, (List.cons.inj first).1]
        rfl
      · rename_i single
        exact ⟨one found, fun _ => single⟩
    · rename_i kind other found
      exact ⟨one found, fun greater => (other greater).elim⟩
    · rename_i nonzero _ none
      rw [if_neg nonzero, none] at symbol
      exact absurd rfl symbol

theorem tokens_word {t : Token} (member : t ∈ s.tokens p) (word : t.kind = .word) :
    t.span.start < t.span.stop ∧ t.span.stop ≤ s.chars.length ∧
    (∀ i, t.span.start ≤ i → i < t.span.stop → ordinary (s.char i) = true) ∧
    (t.span.stop < s.chars.length → ordinary (s.char t.span.stop) = false) := by
  induction p using tokens.induct s with
  | case1 p eof =>
    rw [s.tokens_eof eof] at member
    cases member
  | case2 p some ih =>
    rw [s.tokens_cons some] at member
    rcases List.mem_cons.mp member with rfl | later
    · have inside := mt s.gettoken_eof_iff.mpr some
      have bound : s.skip p < s.chars.length := by
        have low := mt s.char_eq_zero_iff.mpr inside
        omega
      obtain ⟨_, start, longer, stops, shape⟩ := s.tokenAt_spec inside (s.skip_not_blank bound)
      have stop : (s.tokenAt (s.skip p)).span.stop = s.skipWord (s.skip p) := by
        rcases shape with ⟨other, _⟩ | ⟨_, _, stop⟩
        · exact absurd word other
        · exact stop
      show (s.tokenAt (s.skip p)).span.start < (s.tokenAt (s.skip p)).span.stop ∧ _
      refine ⟨by omega, stops, fun i low high => ?_, fun more => ?_⟩
      · have first : s.skip p ≤ i := by
          have low : (s.tokenAt (s.skip p)).span.start ≤ i := low
          omega
        have last : i < s.skipWord (s.skip p) := by
          have high : i < (s.tokenAt (s.skip p)).span.stop := high
          omega
        exact (s.run_passes ordinary first last).2
      · have more : (s.tokenAt (s.skip p)).span.stop < s.chars.length := more
        show ordinary (s.char (s.tokenAt (s.skip p)).span.stop) = false
        rw [stop] at more ⊢
        exact s.run_stops ordinary more
    · exact ih later

theorem tokens_symbol {t : Token} (member : t ∈ s.tokens p) (symbol : t.kind ≠ .word) :
    (List.range (t.span.stop - t.span.start)).map (fun i => s.char (t.span.start + i)) =
      t.kind.spelling ∧ (t.kind = .greater → s.char t.span.stop ≠ 0x3E) := by
  induction p using tokens.induct s with
  | case1 p eof =>
    rw [s.tokens_eof eof] at member
    cases member
  | case2 p some ih =>
    rw [s.tokens_cons some] at member
    rcases List.mem_cons.mp member with rfl | later
    · exact s.tokenAt_symbol symbol
    · exact ih later

end CString

end Xv6
