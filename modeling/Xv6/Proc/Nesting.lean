import Xv6.Proc.Interrupts

/-!
# The interrupt flag through nesting and switches

The depth of a processor is that of the code it runs, so the flag is off inside a nesting and no
interrupt comes there. `intena` of a processor belongs to the nesting of the process that it runs:
`sched` keeps it in a variable while the scheduler and other processes use the field, and puts it
into the field of the processor where the process goes on. The `popcli` that ends the nesting
therefore finds the flag that the first `pushcli` found.
-/

namespace Xv6

open Transition (run run_cons)
open Function (update update_of_ne update_self)

def IrqPc.extra {L : Type} : IrqPc L → Nat
  | .spinning _ | .popping => 1
  | .idle | .pushing _ _ | .switched _ => 0

namespace IrqSystem

variable {C P L : Type} {ptable : L} {s s' : IrqSystem C P L} {c : C} {x : IrqCpu P}
  {t : IrqThread L} {p : P}

/-- Code that was interrupted: outside of all nesting, perhaps where `pushcli` has read the flag. -/
def Interrupted (f : IrqFrame L) : Prop :=
  f.depth = 0 ∧ f.held = [] ∧ (f.pc = .idle ∨ ∃ lock e, f.pc = .pushing lock e ∧ f.before = some e)

structure Live (x : IrqCpu P) (t : IrqThread L) : Prop where
  ncli : x.ncli = t.top.depth
  off : 0 < t.top.depth → x.flag = false
  here : ∀ e, t.top.pc ≠ .switched e
  locks : t.top.held.length + t.top.pc.extra ≤ t.top.depth
  read : ∀ lock e, t.top.pc = .pushing lock e → t.top.depth = 0 → t.top.before = some e
  saved : x.proc.isSome → 0 < t.top.depth → ∀ b, t.top.before = some b → x.intena = b
  below : ∀ f ∈ t.below, Interrupted f

structure Parked (intena : Option Bool) (t : IrqThread L) : Prop where
  depth : t.top.depth = 1
  locks : t.top.held.length ≤ 1
  saved : ∀ b, t.top.before = some b → intena = some b
  below : ∀ f ∈ t.below, Interrupted f

structure Inv (s : IrqSystem C P L) : Prop where
  live : ∀ c, Live (s.cpu c) (s.running c)
  parked : ∀ p e, (s.thread (.inl p)).top.pc = .switched e → Parked e (s.thread (.inl p))
  waiting : ∀ c, (s.cpu c).proc.isSome → (s.thread (.inr c)).top.pc = .idle ∧
    (s.thread (.inr c)).top.depth = 1 ∧ (s.thread (.inr c)).top.held.length = 1 ∧
    (s.thread (.inr c)).below = []
  alone : ∀ c c' p, (s.cpu c).proc = some p → (s.cpu c').proc = some p → c = c'

theorem current_of_some (here : (s.cpu c).proc = some p) : s.current c = .inl p := by
  rw [current, here]

theorem current_of_none (here : (s.cpu c).proc = none) : s.current c = .inr c := by
  rw [current, here]

theorem current_congr (same : (s'.cpu c).proc = (s.cpu c).proc) : s'.current c = s.current c := by
  rw [current, same, current]

theorem Inv.not_current (inv : s.Inv) {e : Option Bool}
    (parked : (s.thread (.inl p)).top.pc = .switched e) (c : C) : s.current c ≠ .inl p := by
  intro same
  have running : s.running c = s.thread (.inl p) := by rw [running, same]
  exact (inv.live c).here e (running ▸ parked)

theorem running_congr (cpu : s'.cpu c = s.cpu c)
    (thread : s'.thread (s.current c) = s.thread (s.current c)) :
    s'.cpu c = s.cpu c ∧ s'.running c = s.running c := by
  refine ⟨cpu, ?_⟩
  rw [running, current_congr (congrArg IrqCpu.proc cpu), thread, running]

theorem Inv.current_ne (inv : s.Inv) {c' : C} (other : c' ≠ c) : s.current c' ≠ s.current c := by
  cases here : (s.cpu c).proc with
  | none =>
    rw [current_of_none here]
    cases there : (s.cpu c').proc with
    | none =>
      rw [current_of_none there]
      exact fun same => other (Sum.inr.inj same)
    | some p =>
      rw [current_of_some there]
      nofun
  | some p =>
    rw [current_of_some here]
    cases there : (s.cpu c').proc with
    | none =>
      rw [current_of_none there]
      nofun
    | some p' =>
      rw [current_of_some there]
      intro same
      cases same
      exact other (inv.alone c' c p there here)

theorem booted_inv (ptable : L) (intena : C → Bool) :
    (booted ptable intena : IrqSystem C P L).Inv where
  live c := ⟨rfl, nofun, nofun, Nat.le_refl _, nofun, nofun, nofun⟩
  parked p e parked := by
    cases parked
    exact ⟨rfl, Nat.le_refl _, nofun, nofun⟩
  waiting := nofun
  alone := nofun

variable [DecidableEq C] [DecidableEq P]

def Local (s : IrqSystem C P L) (c : C) (s' : IrqSystem C P L) : Prop :=
  ∃ x t lock, s' = { s.put c x t with lock := lock } ∧ x.proc = (s.cpu c).proc ∧ Live x t

theorem Local.other (inv : s.Inv) (moved : Local s c s') {c' : C} (other : c' ≠ c) :
    s'.cpu c' = s.cpu c' ∧ s'.running c' = s.running c' := by
  obtain ⟨x, t, lock, rfl, -, -⟩ := moved
  have cpu : (put s c x t).cpu c' = s.cpu c' := update_of_ne other _ _
  refine ⟨cpu, ?_⟩
  have same : (put s c x t).current c' = s.current c' := current_congr (by rw [cpu])
  show update s.thread (s.current c) t ((put s c x t).current c') = s.running c'
  rw [same, update_of_ne (inv.current_ne other)]
  rfl

theorem Local.thread (moved : Local s c s') {r : P ⊕ C} (other : r ≠ s.current c) :
    s'.thread r = s.thread r := by
  obtain ⟨x, t, lock, rfl, -, -⟩ := moved
  exact update_of_ne other _ _

theorem put_self (lock : L → Spinlock C) (proc : x.proc = (s.cpu c).proc) :
    ({ s.put c x t with lock := lock } : IrqSystem C P L).cpu c = x ∧
    ({ s.put c x t with lock := lock } : IrqSystem C P L).running c = t := by
  have cpu : (s.put c x t).cpu c = x := update_self ..
  have same : (s.put c x t).current c = s.current c := current_congr (by rw [cpu, proc])
  refine ⟨cpu, ?_⟩
  show (s.put c x t).thread ((s.put c x t).current c) = t
  rw [same]
  exact update_self ..

theorem Local.self (moved : Local s c s') :
    (s'.cpu c).proc = (s.cpu c).proc ∧ Live (s'.cpu c) (s'.running c) := by
  obtain ⟨x, t, lock, rfl, proc, live⟩ := moved
  obtain ⟨cpu, running⟩ := put_self lock proc
  rw [cpu, running]
  exact ⟨proc, live⟩

theorem Local.inv (inv : s.Inv) (moved : Local s c s') : s'.Inv := by
  have procs : ∀ c', (s'.cpu c').proc = (s.cpu c').proc := by
    intro c'
    by_cases same : c' = c
    · rw [same, moved.self.1]
    · rw [(moved.other inv same).1]
  refine ⟨fun c' => ?_, fun p e pc => ?_, fun c' some => ?_, fun c₁ c₂ p => ?_⟩
  · by_cases same : c' = c
    · rw [same]
      exact moved.self.2
    · obtain ⟨cpu, running⟩ := moved.other inv same
      rw [cpu, running]
      exact inv.live c'
  · have other : (.inl p : P ⊕ C) ≠ s.current c := by
      intro same
      have running : s'.running c = s'.thread (.inl p) := by
        rw [running, current_congr moved.self.1, same]
      exact moved.self.2.here e (running ▸ pc)
    rw [moved.thread other] at pc ⊢
    exact inv.parked p e pc
  · rw [procs] at some
    have other : (.inr c' : P ⊕ C) ≠ s.current c := by
      intro same
      cases proc : (s.cpu c).proc with
      | none =>
        rw [current_of_none proc] at same
        cases same
        rw [proc] at some
        cases some
      | some p =>
        rw [current_of_some proc] at same
        cases same
    rw [moved.thread other]
    exact inv.waiting c' some
  · rw [procs, procs]
    exact inv.alone c₁ c₂ p

theorem local_putTop (inv : s.Inv) {f : IrqFrame L} (lock : L → Spinlock C)
    (proc : x.proc = (s.cpu c).proc) (ncli : x.ncli = f.depth) (off : 0 < f.depth → x.flag = false)
    (here : ∀ e, f.pc ≠ .switched e) (locks : f.held.length + f.pc.extra ≤ f.depth)
    (read : ∀ lock e, f.pc = .pushing lock e → f.depth = 0 → f.before = some e)
    (saved : x.proc.isSome → 0 < f.depth → ∀ b, f.before = some b → x.intena = b) :
    Local s c { s.putTop c x f with lock := lock } :=
  ⟨x, _, lock, rfl, proc, ncli, off, here, locks, read, saved, (inv.live c).below⟩

theorem local_cli (inv : s.Inv) (taken : s.cli c = .ok s') : Local s c s' := by
  have live := inv.live c
  have locks := live.locks
  simp only [cli] at taken
  split at taken
  · rename_i lock eflags pc
    rw [pc] at locks
    have saved : (s.cpu c).proc.isSome → ∀ b, (s.running c).top.before = some b →
        (if (s.cpu c).ncli = 0 then eflags else (s.cpu c).intena) = b := by
      intro some b before
      rcases Nat.eq_zero_or_pos (s.running c).top.depth with zero | depth
      · rw [if_pos (by rw [live.ncli, zero]; rfl)]
        exact Option.some.inj ((live.read lock eflags pc zero).symm.trans before)
      · rw [if_neg (by rw [live.ncli]; omega)]
        exact live.saved some depth b before
    have depth : (s.cpu c).ncli + 1 = ((s.running c).top.depth + 1 : Nat) := by
      rw [live.ncli, Int.natCast_succ]
    split at taken
    · cases taken
      exact local_putTop inv _ rfl depth (fun _ => rfl) nofun (Nat.le_succ_of_le locks) nofun
        fun some _ => saved some
    · split at taken
      · cases taken
      · cases taken
        exact local_putTop inv _ rfl depth (fun _ => rfl) nofun (Nat.succ_le_succ locks) nofun
          fun some _ => saved some
  · cases taken

theorem local_flag (inv : s.Inv) (flag : Bool) (outside : (s.running c).top.depth = 0) :
    Local s c (s.put c { s.cpu c with flag := flag } (s.running c)) := by
  have live := inv.live c
  exact ⟨_, _, _, rfl, rfl, live.ncli, fun deep => absurd outside (Nat.ne_of_gt deep), live.here,
    live.locks, live.read, live.saved, live.below⟩

theorem local_trap (inv : s.Inv) (taken : s.trap c = .ok s') : Local s c s' := by
  have live := inv.live c
  simp only [trap] at taken
  split at taken
  · rename_i enabled
    cases taken
    have outside : (s.running c).top.depth = 0 := by
      refine Nat.eq_zero_of_not_pos fun deep => ?_
      rw [live.off deep] at enabled
      cases enabled
    have locks := live.locks
    rw [outside] at locks
    have interrupted : Interrupted (s.running c).top := by
      refine ⟨outside, List.length_eq_zero_iff.mp (by omega), ?_⟩
      cases pc : (s.running c).top.pc with
      | idle => exact .inl rfl
      | pushing lock e => exact .inr ⟨lock, e, rfl, live.read lock e pc outside⟩
      | spinning lk => rw [pc] at locks; exact absurd locks (by simp [IrqPc.extra])
      | popping => rw [pc] at locks; exact absurd locks (by simp [IrqPc.extra])
      | switched e => exact absurd pc (live.here e)
    refine ⟨_, _, _, rfl, rfl, ?_, nofun, nofun, Nat.le_refl _, nofun, nofun, fun f member => ?_⟩
    · show (s.cpu c).ncli = (0 : Nat)
      rw [live.ncli, outside]
    · rcases List.mem_cons.mp member with rfl | later
      · exact interrupted
      · exact live.below f later
  · cases taken

theorem allocproc_ok (taken : s.allocproc ptable p = .ok s') :
    (∃ e, (s.thread (.inl p)).top.pc = .switched e) ∧
    s' = { s with thread := update s.thread (.inl p) (.forked ptable) } := by
  simp only [allocproc] at taken
  split at taken
  · rename_i e parked
    cases taken
    exact ⟨⟨e, parked⟩, rfl⟩
  · cases taken

variable [DecidableEq L]

section

variable (inv : s.Inv)
include inv

theorem local_pushcli {lock : Option L} (taken : s.pushcli c lock = .ok s') : Local s c s' := by
  have live := inv.live c
  have locks := live.locks
  simp only [pushcli] at taken
  split at taken
  · rename_i idle
    rw [idle] at locks
    cases taken
    refine local_putTop inv _ rfl live.ncli live.off nofun locks (fun lock e pc none => ?_)
      fun some depth b before => ?_
    · cases pc
      exact if_pos none
    · rw [if_neg (Nat.ne_of_gt depth)] at before
      exact live.saved some depth b before
  · cases taken

theorem local_xchg (taken : s.xchg c = .ok s') : Local s c s' := by
  have live := inv.live c
  have locks := live.locks
  simp only [xchg] at taken
  split at taken
  · rename_i lk pc
    rw [pc] at locks
    split at taken
    · cases taken
    · cases taken
      exact local_putTop inv _ rfl live.ncli live.off nofun locks nofun live.saved
  · cases taken

theorem local_release {lk : L} (taken : s.release c lk = .ok s') : Local s c s' := by
  have live := inv.live c
  have locks := live.locks
  simp only [release] at taken
  split at taken
  · rename_i mine
    rw [mine.1] at locks
    have fewer := List.length_erase_add_one mine.2
    split at taken
    · cases taken
      refine local_putTop inv _ rfl live.ncli live.off nofun ?_ nofun live.saved
      show ((s.running c).top.held.erase lk).length + 1 ≤ _
      rw [fewer]
      exact locks
    · cases taken
  · cases taken

theorem popcli_ok (taken : s.popcli c = .ok s') :
    0 < (s.running c).top.depth ∧ (s.running c).top.held.length < (s.running c).top.depth ∧
    s' = s.putTop c
      { s.cpu c with
        ncli := (s.cpu c).ncli - 1
        flag := (s.cpu c).ncli - 1 = 0 && (s.cpu c).intena }
      { (s.running c).top with
        pc := .idle
        depth := (s.running c).top.depth - 1 } := by
  have locks := (inv.live c).locks
  simp only [popcli] at taken
  split at taken
  · rename_i calls
    have nested : (s.running c).top.held.length < (s.running c).top.depth := by
      rcases calls with pc | ⟨-, more⟩
      · rw [pc] at locks
        exact locks
      · exact more
    split at taken
    · cases taken
    · split at taken
      · cases taken
      · cases taken
        exact ⟨Nat.zero_lt_of_lt nested, nested, rfl⟩
  · cases taken

theorem local_popcli (taken : s.popcli c = .ok s') : Local s c s' := by
  have live := inv.live c
  obtain ⟨deep, nested, rfl⟩ := popcli_ok inv taken
  have ncli := live.ncli
  refine local_putTop inv _ rfl ?_ (fun depth => ?_) nofun (Nat.le_sub_one_of_lt nested) nofun
    fun some _ => live.saved some deep
  · show (s.cpu c).ncli - 1 = ((s.running c).top.depth - 1 : Nat)
    omega
  · have depth : 0 < (s.running c).top.depth - 1 := depth
    have more : (s.cpu c).ncli - 1 ≠ 0 := by omega
    show (decide ((s.cpu c).ncli - 1 = 0) && _) = false
    rw [decide_eq_false more, Bool.false_and]

theorem local_sti (taken : s.sti c = .ok s') : Local s c s' := by
  simp only [sti] at taken
  split at taken
  · rename_i top
    cases taken
    exact local_flag inv true top.2.2.2
  · cases taken

theorem local_iret (taken : s.iret c = .ok s') : Local s c s' := by
  have live := inv.live c
  simp only [iret] at taken
  split at taken
  · rename_i ends
    split at taken
    · rename_i f rest below
      cases taken
      obtain ⟨outside, none, pc⟩ := live.below f (by rw [below]; exact List.mem_cons_self)
      have deeper : ∀ f ∈ rest, Interrupted f := fun f member =>
        live.below f (by rw [below]; exact List.mem_cons_of_mem _ member)
      refine ⟨_, _, _, rfl, rfl, ?_, fun deep => ?_, fun e pc' => ?_, ?_, fun lock e pc' _ => ?_,
        fun _ deep => ?_, deeper⟩
      · show (s.cpu c).ncli = (f.depth : Nat)
        rw [live.ncli, ends.2, outside]
      · exact absurd outside (Nat.ne_of_gt deep)
      · have pc' : f.pc = .switched e := pc'
        rw [pc'] at pc
        rcases pc with pc | ⟨_, _, pc, _⟩ <;> cases pc
      · show f.held.length + f.pc.extra ≤ f.depth
        rw [none, outside]
        rcases pc with pc | ⟨_, _, pc, _⟩ <;> rw [pc] <;> exact Nat.le_refl _
      · have pc' : f.pc = .pushing lock e := pc'
        rw [pc'] at pc
        rcases pc with pc | ⟨_, _, pc, before⟩ <;> cases pc
        exact before
      · exact absurd outside (Nat.ne_of_gt deep)
    · split at taken
      · cases taken
        exact local_flag inv _ ends.2
      · cases taken
  · cases taken

end

structure Out (s : IrqSystem C P L) (c : C) (p : P) (s' : IrqSystem C P L) : Prop where
  here : (s.cpu c).proc = some p
  idle : (s.running c).top.pc = .idle
  depth : (s.running c).top.depth = 1
  off : (s.cpu c).flag = false
  cpu : s'.cpu c = { s.cpu c with proc := none }
  thread : s'.thread (.inl p) = { s.running c with
    top := { (s.running c).top with pc := .switched (some (s.cpu c).intena) } }
  cpus : ∀ c' ≠ c, s'.cpu c' = s.cpu c'
  threads : ∀ r ≠ .inl p, s'.thread r = s.thread r

theorem sched_out (inv : s.Inv) (taken : s.sched ptable c = .ok s') : ∃ p, Out s c p s' := by
  have ncli := (inv.live c).ncli
  simp only [sched] at taken
  split at taken
  · rename_i calls
    obtain ⟨p, here⟩ := Option.isSome_iff_exists.mp calls.1
    have current := current_of_some here
    split at taken
    · cases taken
    · split at taken
      · cases taken
      · rename_i one
        split at taken
        · cases taken
        · rename_i off
          cases taken
          refine ⟨p, here, calls.2, by omega, by simpa using off, update_self .., ?_,
            fun c' other => update_of_ne other _ _, fun r other => ?_⟩
          · show update s.thread (s.current c) _ (.inl p) = _
            rw [current, update_self]
          · exact update_of_ne (by rw [current]; exact other) _ _
  · cases taken

structure In (ptable : L) (s : IrqSystem C P L) (c : C) (p : P) (e : Option Bool)
    (s' : IrqSystem C P L) : Prop where
  parked : (s.thread (.inl p)).top.pc = .switched e
  scheduler : (s.cpu c).proc = none
  below : (s.running c).below = []
  idle : (s.running c).top.pc = .idle
  depth : (s.running c).top.depth = 1
  held : (s.running c).top.held = [ptable]
  cpu : s'.cpu c = { s.cpu c with proc := some p, intena := e.getD (s.cpu c).intena }
  thread : s'.thread (.inl p) =
    { s.thread (.inl p) with top := { (s.thread (.inl p)).top with pc := .idle } }
  cpus : ∀ c' ≠ c, s'.cpu c' = s.cpu c'
  threads : ∀ r ≠ .inl p, s'.thread r = s.thread r

theorem swtch_in (taken : s.swtch ptable c p = .ok s') : ∃ e, In ptable s c p e s' := by
  simp only [swtch] at taken
  split at taken
  · rename_i ready
    obtain ⟨none, below, pc, depth, held⟩ := ready
    split at taken
    · rename_i e parked
      cases taken
      exact ⟨e, parked, none, List.isEmpty_iff.mp below, pc, depth, held, update_self ..,
        update_self .., fun c' other => update_of_ne other _ _,
        fun r other => update_of_ne other _ _⟩
    · cases taken
  · cases taken

section

variable (inv : s.Inv)
include inv

variable {a : IrqAction C P L}

section

variable (taken : s.step ptable a = .ok s')
include taken

theorem step_cases :
    (∃ c, a.cpu = some c ∧ Local s c s') ∨ (∃ c, a = .sched c) ∨ (∃ c p, a = .swtch c p) ∨
      ∃ p, a = .allocproc p := by
  cases a with
  | pushcli c lock => exact .inl ⟨c, rfl, local_pushcli inv taken⟩
  | cli c => exact .inl ⟨c, rfl, local_cli inv taken⟩
  | xchg c => exact .inl ⟨c, rfl, local_xchg inv taken⟩
  | release c lk => exact .inl ⟨c, rfl, local_release inv taken⟩
  | popcli c => exact .inl ⟨c, rfl, local_popcli inv taken⟩
  | sti c => exact .inl ⟨c, rfl, local_sti inv taken⟩
  | trap c => exact .inl ⟨c, rfl, local_trap inv taken⟩
  | iret c => exact .inl ⟨c, rfl, local_iret inv taken⟩
  | sched c => exact .inr (.inl ⟨c, rfl⟩)
  | swtch c p => exact .inr (.inr (.inl ⟨c, p, rfl⟩))
  | allocproc p => exact .inr (.inr (.inr ⟨p, rfl⟩))

theorem kept_quiet (quiet : a.cpu ≠ some c) : s'.cpu c = s.cpu c ∧ s'.running c = s.running c := by
  have other : ∀ c', a.cpu = some c' → c ≠ c' := fun c' here same =>
    quiet (here.trans (by rw [same]))
  rcases step_cases inv taken with ⟨c', here, moved⟩ | ⟨c', rfl⟩ | ⟨c', p, rfl⟩ | ⟨p, rfl⟩
  · exact moved.other inv (other c' here)
  · obtain ⟨p, out⟩ := sched_out inv taken
    refine running_congr (out.cpus c (other c' rfl)) (out.threads _ ?_)
    rw [← current_of_some out.here]
    exact inv.current_ne (other c' rfl)
  · obtain ⟨e, enters⟩ := swtch_in taken
    exact running_congr (enters.cpus c (other c' rfl))
      (enters.threads _ (inv.not_current enters.parked c))
  · obtain ⟨⟨e, parked⟩, rfl⟩ := allocproc_ok taken
    exact running_congr rfl (update_of_ne (inv.not_current parked c) _ _)

theorem kept_parked {e : Option Bool} (parked : (s.thread (.inl p)).top.pc = .switched e)
    (other : a ≠ .allocproc p ∧ ∀ c, a ≠ .swtch c p) : s'.thread (.inl p) = s.thread (.inl p) := by
  have away : ∀ c, (.inl p : P ⊕ C) ≠ s.current c := fun c => (inv.not_current parked c).symm
  rcases step_cases inv taken with ⟨c, -, moved⟩ | ⟨c, rfl⟩ | ⟨c, p', rfl⟩ | ⟨p', rfl⟩
  · exact moved.thread (away c)
  · obtain ⟨p', out⟩ := sched_out inv taken
    exact out.threads _ (current_of_some out.here ▸ away c)
  · obtain ⟨e', enters⟩ := swtch_in taken
    exact enters.threads _ fun same => other.2 c (by rw [Sum.inl.inj same])
  · obtain ⟨-, rfl⟩ := allocproc_ok taken
    exact update_of_ne (fun same => other.1 (by rw [Sum.inl.inj same])) _ _

end

theorem Inv.sched (taken : s.sched ptable c = .ok s') : s'.Inv := by
  have quiet : ∀ c' ≠ c, s'.cpu c' = s.cpu c' ∧ s'.running c' = s.running c' := fun c' other =>
    kept_quiet inv (show s.step ptable (.sched c) = .ok s' from taken)
      fun same => other (Option.some.inj same).symm
  have live := inv.live c
  obtain ⟨p, out⟩ := sched_out inv taken
  have process : (s.cpu c).proc.isSome := by rw [out.here]; rfl
  refine ⟨fun c' => ?_, fun p' e parked => ?_, fun c' busy => ?_, fun c₁ c₂ p' => ?_⟩
  · by_cases same : c' = c
    · subst same
      -- the scheduler goes on behind its switch, with the lock of the process
      obtain ⟨idle, one, held, none⟩ := inv.waiting c' process
      have running : s'.running c' = s.thread (.inr c') := by
        rw [running, current_of_none (by rw [out.cpu]), out.threads (.inr c') nofun]
      rw [out.cpu, running]
      refine ⟨?_, fun _ => out.off, by rw [idle]; nofun, ?_, by rw [idle]; nofun, nofun,
        by rw [none]; nofun⟩
      · show (s.cpu c').ncli = _
        rw [live.ncli, out.depth, one]
      · rw [idle, one, held]
        exact Nat.le_refl _
    · rw [(quiet c' same).1, (quiet c' same).2]
      exact inv.live c'
  · by_cases same : p' = p
    · subst same
      have locks := live.locks
      rw [out.idle, out.depth] at locks
      rw [out.thread] at parked ⊢
      cases parked
      refine ⟨out.depth, locks, fun b before => congrArg some ?_, live.below⟩
      exact live.saved process (by rw [out.depth]; exact Nat.one_pos) b before
    · rw [out.threads _ fun eq => same (Sum.inl.inj eq)] at parked ⊢
      exact inv.parked p' e parked
  · have other : c' ≠ c := by
      rintro rfl
      rw [out.cpu] at busy
      cases busy
    rw [out.cpus c' other] at busy
    rw [out.threads (.inr c') nofun]
    exact inv.waiting c' busy
  · have still : ∀ c', (s'.cpu c').proc = some p' → (s.cpu c').proc = some p' := fun c' runs => by
      rwa [out.cpus c' fun same => by rw [same, out.cpu] at runs; cases runs] at runs
    exact fun one two => inv.alone c₁ c₂ p' (still c₁ one) (still c₂ two)

theorem Inv.swtch (taken : s.swtch ptable c p = .ok s') : s'.Inv := by
  have quiet : ∀ c' ≠ c, s'.cpu c' = s.cpu c' ∧ s'.running c' = s.running c' := fun c' other =>
    kept_quiet inv (show s.step ptable (.swtch c p) = .ok s' from taken)
      fun same => other (Option.some.inj same).symm
  have live := inv.live c
  obtain ⟨e, enters⟩ := swtch_in taken
  have old := inv.parked p e enters.parked
  refine ⟨fun c' => ?_, fun p' e' parked => ?_, fun c' busy => ?_, fun c₁ c₂ p' => ?_⟩
  · by_cases same : c' = c
    · subst same
      have running : s'.running c' = s'.thread (.inl p) := by
        rw [running, current_of_some (by rw [enters.cpu])]
      rw [enters.cpu, running, enters.thread]
      refine ⟨?_, fun _ => live.off (by rw [enters.depth]; exact Nat.one_pos), nofun, ?_, nofun,
        fun _ _ b before => ?_, old.below⟩
      · show (s.cpu c').ncli = ((s.thread (.inl p)).top.depth : Nat)
        rw [live.ncli, enters.depth, old.depth]
      · show (s.thread (.inl p)).top.held.length + 0 ≤ (s.thread (.inl p)).top.depth
        rw [old.depth]
        exact old.locks
      · show e.getD _ = b
        rw [old.saved b before, Option.getD_some]
    · rw [(quiet c' same).1, (quiet c' same).2]
      exact inv.live c'
  · have other : p' ≠ p := by
      rintro rfl
      rw [enters.thread] at parked
      cases parked
    rw [enters.threads _ fun eq => other (Sum.inl.inj eq)] at parked ⊢
    exact inv.parked p' e' parked
  · rw [enters.threads (.inr c') nofun]
    by_cases same : c' = c
    · subst same
      rw [← current_of_none enters.scheduler]
      exact ⟨enters.idle, enters.depth, by rw [← running, enters.held]; rfl, enters.below⟩
    · rw [enters.cpus c' same] at busy
      exact inv.waiting c' busy
  · -- a processor runs the process only after this step, and others run others
    have still : ∀ c', (s'.cpu c').proc = some p' → c' = c ∧ p' = p ∨
        (s.cpu c').proc = some p' ∧ p' ≠ p := fun c' runs => by
      by_cases same : c' = c
      · rw [same, enters.cpu] at runs
        exact .inl ⟨same, (Option.some.inj runs).symm⟩
      · rw [enters.cpus c' same] at runs
        refine .inr ⟨runs, ?_⟩
        rintro rfl
        exact inv.not_current enters.parked c' (current_of_some runs)
    intro one two
    rcases still c₁ one with ⟨rfl, same⟩ | ⟨runs, other⟩ <;>
      rcases still c₂ two with ⟨rfl, same'⟩ | ⟨runs', other'⟩
    · rfl
    · exact absurd same other'
    · exact absurd same' other
    · exact inv.alone c₁ c₂ p' runs runs'

theorem Inv.allocproc (taken : s.allocproc ptable p = .ok s') : s'.Inv := by
  have quiet : ∀ c', s'.cpu c' = s.cpu c' ∧ s'.running c' = s.running c' := fun c' =>
    kept_quiet inv (show s.step ptable (.allocproc p) = .ok s' from taken) nofun
  obtain ⟨-, shape⟩ := allocproc_ok taken
  have thread : ∀ r, r ≠ .inl p → s'.thread r = s.thread r := fun r other => by
    rw [shape]
    exact update_of_ne other _ _
  refine ⟨fun c' => ?_, fun p' e parked => ?_, fun c' busy => ?_, fun c₁ c₂ p' => ?_⟩
  · rw [(quiet c').1, (quiet c').2]
    exact inv.live c'
  · by_cases same : p' = p
    · subst same
      have mine : s'.thread (.inl p') = .forked ptable := by
        rw [shape]
        exact update_self ..
      rw [mine] at parked ⊢
      cases parked
      exact ⟨rfl, Nat.le_refl _, nofun, nofun⟩
    · rw [thread _ fun eq => same (Sum.inl.inj eq)] at parked ⊢
      exact inv.parked p' e parked
  · rw [(quiet c').1] at busy
    rw [thread (.inr c') nofun]
    exact inv.waiting c' busy
  · rw [(quiet c₁).1, (quiet c₂).1]
    exact inv.alone c₁ c₂ p'

theorem Inv.step (taken : s.step ptable a = .ok s') : s'.Inv := by
  rcases step_cases inv taken with ⟨c, -, moved⟩ | ⟨c, rfl⟩ | ⟨c, p, rfl⟩ | ⟨p, rfl⟩
  · exact moved.inv inv
  · exact Inv.sched inv taken
  · exact Inv.swtch inv taken
  · exact Inv.allocproc inv taken

variable {actions : List (IrqAction C P L)}

theorem run_quiet (quiet : ∀ a ∈ actions, a.cpu ≠ some c)
    (reached : run (step ptable) s actions = .ok s') :
    s'.Inv ∧ s'.cpu c = s.cpu c ∧ s'.running c = s.running c := by
  induction actions generalizing s with
  | nil =>
    cases reached
    exact ⟨inv, rfl, rfl⟩
  | cons a rest ih =>
    obtain ⟨next, taken, tail⟩ := run_cons.mp reached
    obtain ⟨cpu, running⟩ := kept_quiet inv taken (quiet a List.mem_cons_self)
    rw [← cpu, ← running]
    exact ih (inv.step taken) (fun a member => quiet a (List.mem_cons_of_mem _ member)) tail

theorem run_parked {e : Option Bool} (parked : (s.thread (.inl p)).top.pc = .switched e)
    (others : ∀ a ∈ actions, a ≠ .allocproc p ∧ ∀ c, a ≠ .swtch c p)
    (reached : run (step ptable) s actions = .ok s') :
    s'.Inv ∧ s'.thread (.inl p) = s.thread (.inl p) := by
  induction actions generalizing s with
  | nil =>
    cases reached
    exact ⟨inv, rfl⟩
  | cons a rest ih =>
    obtain ⟨next, taken, tail⟩ := run_cons.mp reached
    have kept := kept_parked inv taken parked (others a List.mem_cons_self)
    rw [← kept] at parked ⊢
    exact ih (inv.step taken) parked (fun a member => others a (List.mem_cons_of_mem _ member)) tail

theorem popcli_restores {b : Bool} (process : (s.cpu c).proc.isSome)
    (last : (s.running c).top.depth = 1) (before : (s.running c).top.before = some b)
    (taken : s.popcli c = .ok s') : (s'.cpu c).flag = b := by
  have live := inv.live c
  obtain ⟨deep, -, rfl⟩ := popcli_ok inv taken
  have zero : (s.cpu c).ncli - 1 = 0 := by
    rw [live.ncli, last]
    rfl
  show (update s.cpu c _ c).flag = b
  rw [update_self]
  show (decide ((s.cpu c).ncli - 1 = 0) && (s.cpu c).intena) = b
  rw [decide_eq_true zero, Bool.true_and, live.saved process deep b before]

end

theorem release_keeps {lk : L} (taken : s.release c lk = .ok s') :
    s'.cpu c = s.cpu c ∧ (s'.running c).top.depth = (s.running c).top.depth ∧
      (s'.running c).top.before = (s.running c).top.before := by
  simp only [release] at taken
  split at taken
  · split at taken
    · cases taken
      rw [putTop, (put_self _ rfl).1, (put_self _ rfl).2]
      exact ⟨rfl, rfl, rfl⟩
    · cases taken
  · cases taken

theorem sched_swtch (inv : s.Inv) {c' : C} {others : List (IrqAction C P L)}
    (here : (s.cpu c).proc = some p)
    (others' : ∀ a ∈ others, a ≠ .allocproc p ∧ ∀ c, a ≠ .swtch c p)
    (reached : run (step ptable) s (.sched c :: (others ++ [.swtch c' p])) = .ok s') :
    s'.Inv ∧ (s'.cpu c').proc = some p ∧ (s'.running c').top = (s.running c).top ∧
      (s'.running c').top.depth = 1 := by
  obtain ⟨s₁, taken, rest⟩ := run_cons.mp reached
  obtain ⟨s₂, middle, back⟩ := Transition.run_concat.mp rest
  obtain ⟨p', out⟩ := sched_out inv taken
  obtain rfl : p' = p := Option.some.inj (out.here.symm.trans here)
  obtain ⟨inv₂, kept⟩ := run_parked (inv.step taken) (by rw [out.thread]) others' middle
  obtain ⟨e, enters⟩ := swtch_in back
  have proc : (s'.cpu c').proc = some p' := by rw [enters.cpu]
  have top : (s'.running c').top = (s.running c).top := by
    rw [running, current_of_some proc, enters.thread, kept, out.thread, ← out.idle]
  exact ⟨inv₂.step back, proc, top, by rw [top, out.depth]⟩

structure Survives (ptable : L) (s : IrqSystem C P L) : Prop where
  off : ∀ c, 0 < (s.cpu c).ncli → (s.cpu c).flag = false
  restored : ∀ c b s', (s.cpu c).proc.isSome → (s.running c).top.depth = 1 →
    (s.running c).top.before = some b → s.step ptable (.popcli c) = .ok s' → (s'.cpu c).flag = b
  resumed : ∀ c c' p b others quiet quiet' s', (s.cpu c).proc = some p →
    (s.running c).top.before = some b →
    (∀ a ∈ others, a ≠ .allocproc p ∧ ∀ c, a ≠ .swtch c p) →
    (∀ a ∈ quiet ++ quiet', a.cpu ≠ some c') →
    Transition.run (step ptable) s (.sched c :: (others ++ [.swtch c' p]) ++
      (quiet ++ .release c' ptable :: (quiet' ++ [.popcli c']))) = .ok s' →
    (s.running c).top.depth = 1 ∧ (s.running c).top.held.length ≤ 1 ∧ (s'.cpu c').flag = b

/-- Interrupts are off inside every nesting, and the flag comes out of a nesting as it went in, also
when the process was switched out inside and goes on on another processor. -/
theorem interrupt_state_survives (ptable : L) (intena : C → Bool)
    {actions : List (IrqAction C P L)} {s : IrqSystem C P L}
    (reached : Transition.run (step ptable) (booted ptable intena) actions = .ok s) :
    s.Survives ptable := by
  have inv : s.Inv := Transition.run_invariant Inv
    (fun _ _ _ inv taken => inv.step taken) (booted_inv ptable intena) reached
  refine ⟨fun c deep => ?_, fun c b s' process last before taken =>
    popcli_restores inv process last before taken, ?_⟩
  · have live := inv.live c
    exact live.off (by rw [live.ncli] at deep; omega)
  · intro c c' p b others quiet quiet' s' here before others' still run
    obtain ⟨s₃, front, back⟩ := Transition.run_append.mp run
    obtain ⟨inv₃, proc, top, depth⟩ := sched_swtch inv here others' front
    obtain ⟨s₄, waits, back⟩ := Transition.run_append.mp back
    obtain ⟨inv₄, cpu₄, running₄⟩ :=
      run_quiet inv₃ (fun a member => still a (List.mem_append_left _ member)) waits
    obtain ⟨s₅, releases, back⟩ := Transition.run_cons.mp back
    obtain ⟨s₆, waits', pops⟩ := Transition.run_concat.mp back
    obtain ⟨inv₆, cpu₆, running₆⟩ := run_quiet (inv₄.step releases)
      (fun a member => still a (List.mem_append_right _ member)) waits'
    obtain ⟨cpu₅, depth₅, before₅⟩ := release_keeps releases
    have held := (inv.live c).locks
    rw [← top, depth] at held
    refine ⟨top ▸ depth, Nat.le_trans (Nat.le_add_right _ _) (top ▸ held), ?_⟩
    refine popcli_restores inv₆ ?_ ?_ ?_ pops
    · rw [cpu₆, cpu₅, cpu₄, proc]
      rfl
    · rw [running₆, depth₅, running₄, depth]
    · rw [running₆, before₅, running₄, top, before]

def yields : List (IrqAction Bool Unit Unit) :=
  [.sti false, .pushcli false (some ()), .cli false, .xchg false, .swtch false (),
    .release false (), .popcli false, .pushcli false (some ()), .cli false, .xchg false]

def schedules : List (IrqAction Bool Unit Unit) :=
  [.release false (), .popcli false, .sti true, .pushcli true (some ()), .cli true, .xchg true]

/-- A process that called `yield` with interrupts on moves to the other processor, and interrupts
are on there when it has released the lock. -/
theorem yield_moves : ∃ s s' : IrqSystem Bool Unit Unit,
    Transition.run (step ()) (booted () fun _ => false) yields = .ok s ∧
    0 < (s.cpu false).ncli ∧ (s.cpu false).flag = false ∧
    (s.running false).top.before = some true ∧
    Transition.run (step ()) s (.sched false :: (schedules ++ [.swtch true ()]) ++
      ([] ++ .release true () :: ([] ++ [.popcli true]))) = .ok s' ∧ (s'.cpu true).flag = true := by
  have up : Transition.ends (fun s => decide (0 < (s.cpu false).ncli ∧
      (s.cpu false).proc = some () ∧ (s.running false).top.before = some true))
      (Transition.run (step ()) (booted () fun _ => false) yields) = true := by decide +kernel
  have moves : Transition.ends (fun _ => true) (Transition.run (step ()) (booted () fun _ => false)
      (yields ++ (.sched false :: (schedules ++ [.swtch true ()]) ++
        ([] ++ .release true () :: ([] ++ [.popcli true]))))) = true := by decide +kernel
  obtain ⟨s, reached, facts⟩ := Transition.exists_of_ends up
  obtain ⟨s', all, -⟩ := Transition.exists_of_ends moves
  obtain ⟨s₁, front, back⟩ := Transition.run_append.mp all
  obtain rfl : s₁ = s := Except.ok.inj (front.symm.trans reached)
  obtain ⟨deep, here, before⟩ := of_decide_eq_true facts
  have survives := interrupt_state_survives () (fun _ => false) reached
  exact ⟨s₁, s', reached, deep, survives.off false deep, before, back,
    (survives.resumed false true () true schedules [] [] s' here before
      (by decide +kernel) (by nofun) back).2.2⟩

end IrqSystem

end Xv6
