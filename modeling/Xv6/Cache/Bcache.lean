import Mathlib.Data.Fintype.Card
import Xv6.Library.LinkedRing
import Xv6.Log.Disk

/-!
# The buffer cache

The buffers of `bio.c` and the ring that `bcache.head` heads, with the critical sections that
`bcache.lock` protects: the search of `bget`, which ends with a free buffer, with a recycled one
or asleep on a busy one, and the release of a buffer, which moves it behind the head. The ring
always goes through all buffers, so the searches meet each of them.
-/

namespace Xv6

open LinkedRing

def nbuf : Nat := maxOpBlocks * 3

instance : NeZero nbuf := ⟨by decide⟩

abbrev BufNo := Fin nbuf

abbrev BufNode := Option BufNo

structure Buf where
  busy : Bool
  valid : Bool
  dirty : Bool
  dev : Word
  blockno : BlockNo
  data : Block

structure Bcache where
  buf : BufNo → Buf
  links : Links BufNode

/-- How the critical section of `bget` ends. -/
inductive BgetOutcome where
  | sleeps (b : BufNo)
  | returns (b : BufNo)

namespace Bcache

def bootBuf : Buf where
  busy := false
  valid := false
  dirty := false
  dev := -1
  blockno := 0
  data := fun _ => 0

def binit : Bcache where
  buf := fun _ => bootBuf
  links := (List.finRange nbuf).foldl (fun links b => links.link none (some b))
    { next := fun _ => none, prev := fun _ => none }

def setBuf (c : Bcache) (b : BufNo) (buffer : Buf) : Bcache :=
  { c with buf := Function.update c.buf b buffer }

def caches (c : Bcache) (dev : Word) (blockno : BlockNo) (b : BufNo) : Bool :=
  (c.buf b).dev == dev && (c.buf b).blockno == blockno

def clean (c : Bcache) (b : BufNo) : Bool := !(c.buf b).busy && !(c.buf b).dirty

def search (follow : BufNode → BufNode) (test : BufNo → Bool) :
    Except Fault (Option BufNo) :=
  match seek follow none (fun node => node.any test) (nbuf + 1) (follow none) with
  | some found => .ok found.join
  | none => .error .diverges

def recycled (c : Bcache) (b : BufNo) (dev : Word) (blockno : BlockNo) : Bcache :=
  c.setBuf b
    { c.buf b with
      dev := dev
      blockno := blockno
      busy := true
      valid := false
      dirty := false }

def marked (c : Bcache) (b : BufNo) : Bcache := c.setBuf b { c.buf b with busy := true }

def bget (c : Bcache) (dev : Word) (blockno : BlockNo) : Except Fault (Bcache × BgetOutcome) := do
  match ← search c.links.next (c.caches dev blockno) with
  | some b => if (c.buf b).busy then return (c, .sleeps b) else return (c.marked b, .returns b)
  | none =>
    match ← search c.links.prev c.clean with
    | some b => return (c.recycled b dev blockno, .returns b)
    | none => .error (.panic "bget: no buffers")

def released (c : Bcache) (b : BufNo) : Bcache :=
  { c with links := (c.links.unlink (some b)).link none (some b) }.setBuf b
    { c.buf b with busy := false }

def brelse (c : Bcache) (b : BufNo) : Except Fault Bcache :=
  if (c.buf b).busy then .ok (c.released b) else .error (.panic "brelse")

/-- The links go from the head through every buffer exactly once and back, both ways. -/
def RingOfAll (c : Bcache) : Prop :=
  ∃ order : List BufNo, Ring c.links none (order.map some) ∧ ∀ b, b ∈ order

variable {c c' : Bcache} {b : BufNo} {dev : Word} {blockno : BlockNo}

@[simp]
theorem setBuf_self (c : Bcache) (b : BufNo) (buffer : Buf) : (c.setBuf b buffer).buf b = buffer :=
  Function.update_self _ _ _

@[simp]
theorem setBuf_of_ne {other : BufNo} (ne : other ≠ b) (c : Bcache) (buffer : Buf) :
    (c.setBuf b buffer).buf other = c.buf other :=
  Function.update_of_ne ne _ _

theorem binit_ringOfAll : binit.RingOfAll := by
  have linked : ∀ (rest done : List BufNo) (links : Links BufNode), (done ++ rest).Nodup →
      Ring links none (done.reverse.map some) →
      Ring (rest.foldl (fun links b => links.link none (some b)) links) none
        ((done ++ rest).reverse.map some) := by
    intro rest
    induction rest with
    | nil =>
      intro done links _ ring
      simpa using ring
    | cons b rest ih =>
      intro done links nodup ring
      have split : done ++ b :: rest = (done ++ [b]) ++ rest := by simp
      rw [split] at nodup ⊢
      refine ih (done ++ [b]) _ nodup ?_
      have new : some b ∉ none :: done.reverse.map some := by
        have fresh := (List.nodup_append.mp (nodup.sublist (List.sublist_append_left _ _))).2.2
        simpa using fun member => fresh b member b (by simp) rfl
      simpa using ring.link new
  refine ⟨(List.finRange nbuf).reverse, ?_, by simp⟩
  refine linked _ [] _ (by simpa using List.nodup_finRange nbuf) ⟨by simp, ?_⟩
  simpa using ⟨rfl, rfl⟩

theorem order_length {order : List BufNo} (ring : Ring c.links none (order.map some)) :
    order.length ≤ nbuf := by
  have nodup : order.Nodup :=
    List.Nodup.of_map _ (List.nodup_cons.mp ring.nodup).2
  have bound := nodup.length_le_card
  simpa using bound

theorem find_some (order : List BufNo) (test : BufNo → Bool) :
    ((order.map some).find? (fun node : BufNode => node.any test)).join = order.find? test := by
  induction order with
  | nil => rfl
  | cons b order ih =>
    rw [List.map_cons, List.find?_cons, List.find?_cons]
    cases passes : test b with
    | true => simp [passes]
    | false => simpa [passes] using ih

theorem search_next (ring : c.RingOfAll) (test : BufNo → Bool) :
    ∃ found, search c.links.next test = .ok found ∧ (∀ b, found = some b → test b) ∧
      (found = none → ∀ b, test b = false) := by
  obtain ⟨order, ring, all⟩ := ring
  have enough : (order.map some).length < nbuf + 1 := by
    have bound := order_length ring
    simpa using Nat.lt_succ_of_le bound
  refine ⟨order.find? test, ?_, fun b found => List.find?_some found, fun none b => ?_⟩
  · rw [search, ring.seek_next enough]
    exact congrArg Except.ok (find_some order test)
  · have fails := List.find?_eq_none.mp none b (all b)
    simpa using fails

theorem search_prev (ring : c.RingOfAll) (test : BufNo → Bool) :
    ∃ found, search c.links.prev test = .ok found ∧ (∀ b, found = some b → test b) ∧
      (found = none → ∀ b, test b = false) := by
  obtain ⟨order, ring, all⟩ := ring
  have enough : (order.map some).length < nbuf + 1 := by
    have bound := order_length ring
    simpa using Nat.lt_succ_of_le bound
  refine ⟨order.reverse.find? test, ?_, fun b found => List.find?_some found, fun none b => ?_⟩
  · rw [search, ring.seek_prev enough, ← List.map_reverse]
    exact congrArg Except.ok (find_some order.reverse test)
  · have fails := List.find?_eq_none.mp none b (by simpa using all b)
    simpa using fails

theorem caches_iff :
    c.caches dev blockno b ↔ (c.buf b).dev = dev ∧ (c.buf b).blockno = blockno := by
  simp [caches]

/-- What the critical section of `bget` does: sleep on the busy buffer of the block, return its
free buffer, or recycle a clean free buffer when no buffer caches the block. -/
inductive Gets (c : Bcache) (dev : Word) (blockno : BlockNo) : Bcache → BgetOutcome → Prop where
  | sleeps (b : BufNo) (found : c.caches dev blockno b) (busy : (c.buf b).busy) :
    Gets c dev blockno c (.sleeps b)
  | hits (b : BufNo) (found : c.caches dev blockno b) (free : (c.buf b).busy = false) :
    Gets c dev blockno (c.marked b) (.returns b)
  | recycles (b : BufNo) (missing : ∀ other, c.caches dev blockno other = false)
    (free : (c.buf b).busy = false) (clean : (c.buf b).dirty = false) :
    Gets c dev blockno (c.recycled b dev blockno) (.returns b)

theorem bget_gets (ring : c.RingOfAll) (dev : Word) (blockno : BlockNo) :
    (∃ c' outcome, c.bget dev blockno = .ok (c', outcome) ∧ Gets c dev blockno c' outcome) ∨
      c.bget dev blockno = .error (.panic "bget: no buffers") := by
  obtain ⟨found, ran, passes, missing⟩ := search_next ring (c.caches dev blockno)
  rw [bget, ran]
  cases found with
  | some b =>
    refine .inl ?_
    have hit := passes b rfl
    cases busy : (c.buf b).busy with
    | true => exact ⟨c, .sleeps b, by simp [bind, Except.bind, busy, pure, Except.pure],
        .sleeps b hit busy⟩
    | false => exact ⟨c.marked b, .returns b, by simp [bind, Except.bind, busy, pure, Except.pure],
        .hits b hit busy⟩
  | none =>
    obtain ⟨found, ran, passes, -⟩ := search_prev ring c.clean
    simp only [bind, Except.bind, ran]
    cases found with
    | some b =>
      have clean := passes b rfl
      simp only [Bcache.clean, Bool.and_eq_true, Bool.not_eq_true'] at clean
      exact .inl ⟨_, _, rfl, .recycles b (missing rfl) clean.1 clean.2⟩
    | none => exact .inr rfl

theorem gets_of_bget (ring : c.RingOfAll) {outcome : BgetOutcome}
    (ran : c.bget dev blockno = .ok (c', outcome)) : Gets c dev blockno c' outcome := by
  rcases bget_gets ring dev blockno with ⟨c₁, outcome₁, ran₁, gets⟩ | failed
  · rw [ran] at ran₁
    cases ran₁
    exact gets
  · rw [ran] at failed
    cases failed

theorem RingOfAll.released (ring : c.RingOfAll) (b : BufNo) : (c.released b).RingOfAll := by
  obtain ⟨order, ring, all⟩ := ring
  obtain ⟨front, back, rfl⟩ := List.append_of_mem (all b)
  refine ⟨b :: (front ++ back), ?_, fun other => ?_⟩
  · rw [List.map_append, List.map_cons] at ring
    rw [List.map_cons, List.map_append]
    exact ring.move
  · have member := all other
    simp only [List.mem_append, List.mem_cons] at member ⊢
    rcases member with front | same | back
    · exact .inr (.inl front)
    · exact .inl same
    · exact .inr (.inr back)

end Bcache

end Xv6
