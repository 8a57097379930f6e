import Xv6.Library.Bytes
import Xv6.Library.Run
import Xv6.Vm.Address

/-!
# The multiprocessor tables

`mp.c`: the search for the tables that the firmware left in memory, and the loop of `mpinit` over
the entries of the configuration table. Memory is a function from kernel addresses to bytes, and
the structures of `mp.h` are read at their offsets. A store to `cpus[]` behind its end is a fault,
and a loop that does not end runs out of turns. What is printed on the console is left out.
-/

namespace Xv6

open Bytes (Byte ofBytes)

namespace Mp

def ncpuMax : Nat := 8

abbrev Memory := Word → Byte

def ushort (mem : Memory) (a : Word) : Nat := (mem a).toNat + 256 * (mem (a + 1)).toNat

def uint (mem : Memory) (a : Word) : Word := ofBytes fun i => mem (a + BitVec.ofNat 32 i)

def isText (mem : Memory) (a : Word) : List Byte → Bool
  | [] => true
  | c :: text => mem a = c ∧ isText mem (a + 1) text

def sum (mem : Memory) (addr : Word) : Nat → Byte
  | 0 => 0
  | len + 1 => sum mem addr len + mem (addr + BitVec.ofNat 32 len)

def mpSize : Word := 16

def mpSignature : List Byte := [0x5F, 0x4D, 0x50, 0x5F]

def confSignature : List Byte := [0x50, 0x43, 0x4D, 0x50]

def searchLoop (mem : Memory) : Nat → Word → Option Word
  | 0, _ => none
  | more + 1, p =>
    if isText mem p mpSignature ∧ sum mem p 16 = 0 then some p else searchLoop mem more (p + mpSize)

def mpsearch1 (mem : Memory) (a : Word) (len : Nat) : Option Word :=
  searchLoop mem (len / 16) (p2v a)

def bda : Word := p2v 0x400

/-- `mpsearch`: the first kilobyte of the extended BIOS data area, or the last one of base memory,
and then the BIOS itself. -/
def mpsearch (mem : Memory) : Option Word :=
  let ebda := BitVec.ofNat 32 (ushort mem (bda + 0x0E)) <<< 4
  let found :=
    if ebda ≠ 0 then mpsearch1 mem ebda 1024
    else mpsearch1 mem (BitVec.ofNat 32 (ushort mem (bda + 0x13)) * 1024 - 1024) 1024
  match found with
  | some mp => some mp
  | none => mpsearch1 mem 0xF0000 0x10000

def physaddr (mem : Memory) (mp : Word) : Word := uint mem (mp + 4)

def imcrp (mem : Memory) (mp : Word) : Byte := mem (mp + 12)

def length (mem : Memory) (conf : Word) : Nat := ushort mem (conf + 4)

def version (mem : Memory) (conf : Word) : Byte := mem (conf + 6)

def lapicaddr (mem : Memory) (conf : Word) : Word := uint mem (conf + 36)

def confSize : Word := 44

/-- `mpconfig`: the MP structure and the configuration table with the right signature, version and
checksum. -/
def mpconfig (mem : Memory) : Option (Word × Word) := do
  let mp ← mpsearch mem
  if physaddr mem mp = 0 then none
  else
    let conf := p2v (physaddr mem mp)
    if isText mem conf confSignature = false then none
    else if version mem conf ≠ 1 ∧ version mem conf ≠ 4 then none
    else if sum mem conf (length mem conf) ≠ 0 then none
    else some (mp, conf)

def mpproc : Byte := 0
def mpbus : Byte := 1
def mpioapic : Byte := 2
def mpiointr : Byte := 3
def mplintr : Byte := 4
def mpboot : Byte := 2

structure Cpus where
  ismp : Bool
  ncpu : Nat
  bcpu : Nat
  id : Nat → Byte
  ioapicid : Byte
  lapic : Word
  imcr : Bool

def Cpus.boot : Cpus := ⟨false, 0, 0, fun _ => 0, 0, 0, false⟩

def checkId (mem : Memory) (p : Word) (g : Cpus) : Cpus :=
  if g.ncpu ≠ (mem (p + 1)).toNat then { g with ismp := false } else g

def markBoot (mem : Memory) (p : Word) (g : Cpus) : Cpus :=
  if mem (p + 3) &&& mpboot ≠ 0 then { g with bcpu := g.ncpu } else g

def addCpu (g : Cpus) : Except Fault Cpus :=
  if g.ncpu < ncpuMax then
    .ok { g with
      id := Function.update g.id g.ncpu (BitVec.ofNat 8 g.ncpu)
      ncpu := g.ncpu + 1 }
  else .error .outOfBounds

def processor (mem : Memory) (p : Word) (g : Cpus) : Except Fault Cpus :=
  addCpu (markBoot mem p (checkId mem p g))

def entryLoop (mem : Memory) (e : Word) : Nat → Word → Cpus → Except Fault Cpus
  | 0, _, _ => .error .diverges
  | turns + 1, p, g =>
    if p < e then
      if mem p = mpproc then do entryLoop mem e turns (p + 20) (← processor mem p g)
      else if mem p = mpioapic then
        entryLoop mem e turns (p + 8) { g with ioapicid := mem (p + 1) }
      else if mem p = mpbus ∨ mem p = mpiointr ∨ mem p = mplintr then
        entryLoop mem e turns (p + 8) g
      else entryLoop mem e turns p { g with ismp := false }
    else .ok g

def confEnd (mem : Memory) (conf : Word) : Word := conf + BitVec.ofNat 32 (length mem conf)

/-- `mpinit`. A loop that ends is at no address twice, so it ends within as many turns as there are
addresses and one more. -/
def mpinit (mem : Memory) : Except Fault Cpus :=
  match mpconfig mem with
  | none => .ok .boot
  | some (mp, conf) => do
    let g := { Cpus.boot with ismp := true, lapic := lapicaddr mem conf }
    let g ← entryLoop mem (confEnd mem conf) (2 ^ 32 + 1) (conf + confSize) g
    if g.ismp then return { g with imcr := imcrp mem mp ≠ 0 }
    else return { g with ncpu := 1, lapic := 0, ioapicid := 0 }

def entrySize (type : Byte) : Option Word :=
  if type = mpproc then some 20
  else if type = mpioapic ∨ type = mpbus ∨ type = mpiointr ∨ type = mplintr then some 8
  else none

/-- From `p` on there are entries of known types, one behind the other, up to an address that is
not below `e`. -/
inductive Entries (mem : Memory) (e : Word) : Word → List Word → Prop where
  | done {p : Word} (ends : ¬ p < e) : Entries mem e p []
  | step {p n : Word} {rest : List Word} (inside : p < e) (known : entrySize (mem p) = some n)
      (later : Entries mem e (p + n) rest) : Entries mem e p (p :: rest)

abbrev TableEntries (mem : Memory) (conf : Word) (l : List Word) : Prop :=
  Entries mem (confEnd mem conf) (conf + confSize) l

def apicids (mem : Memory) (entries : List Word) : List Nat :=
  (entries.filter fun p => mem p = mpproc).map fun p => (mem (p + 1)).toNat

variable {mem : Memory} {conf e p : Word} {g g' g₁ : Cpus} {ids : List Nat}

structure Passed (ids : List Nat) (g g' : Cpus) : Prop where
  ncpu : g'.ncpu = g.ncpu + ids.length
  ismp : g'.ismp = true ↔ g.ismp = true ∧ ids = List.range' g.ncpu ids.length
  lapic : g'.lapic = g.lapic
  id : ∀ i, g'.id i = if g.ncpu ≤ i ∧ i < g'.ncpu then BitVec.ofNat 8 i else g.id i

theorem Passed.nil (g : Cpus) : Passed [] g g where
  ncpu := rfl
  ismp := (and_iff_left rfl).symm
  lapic := rfl
  id _ := (if_neg (by omega)).symm

theorem ncpu_markBoot (mem : Memory) (p : Word) (g : Cpus) : (markBoot mem p g).ncpu = g.ncpu := by
  unfold markBoot
  split <;> rfl

theorem ncpu_checkId (mem : Memory) (p : Word) (g : Cpus) : (checkId mem p g).ncpu = g.ncpu := by
  unfold checkId
  split <;> rfl

theorem processor_ok (mem : Memory) (p : Word) (room : g.ncpu < ncpuMax) :
    ∃ g₁, processor mem p g = .ok g₁ ∧ Passed [(mem (p + 1)).toNat] g g₁ := by
  have marked : ∀ g, ∃ boot, markBoot mem p g = { g with bcpu := boot } := by
    intro g
    unfold markBoot
    split
    · exact ⟨_, rfl⟩
    · exact ⟨g.bcpu, rfl⟩
  obtain ⟨boot, marked⟩ := marked (checkId mem p g)
  have checked : checkId mem p g =
      { g with ismp := g.ismp && decide (g.ncpu = (mem (p + 1)).toNat) } := by
    unfold checkId
    split
    · next other => rw [decide_eq_false other, Bool.and_false]
    · next same => rw [decide_eq_true (not_not.mp same), Bool.and_true]
  rw [processor, marked, checked]
  refine ⟨_, if_pos room, rfl, ?_, rfl, fun i => ?_⟩
  · show (g.ismp && decide _) = true ↔ _ ∧ [_] = List.range' g.ncpu 1
    rw [Bool.and_eq_true, decide_eq_true_iff, List.range'_one, List.singleton_inj]
    exact and_congr_right fun _ => eq_comm
  · dsimp only
    by_cases here : i = g.ncpu
    · rw [here, Function.update_self, if_pos (by omega)]
    · rw [Function.update_of_ne here, if_neg (by omega)]

theorem Passed.append {ids' : List Nat} (first : Passed ids g g₁) (second : Passed ids' g₁ g') :
    Passed (ids ++ ids') g g' where
  ncpu := by
    rw [second.ncpu, first.ncpu, List.length_append]
    omega
  ismp := by
    rw [second.ismp, first.ismp, first.ncpu, List.length_append, ← List.range'_append_1, and_assoc]
    refine and_congr_right fun _ => ⟨fun ⟨front, back⟩ => ?_, fun both => ?_⟩
    · rw [← front, ← back]
    · exact List.append_inj both (by rw [List.length_range'])
  lapic := second.lapic.trans first.lapic
  id i := by
    have counted := first.ncpu
    have counted' := second.ncpu
    rw [second.id, first.id]
    by_cases late : g₁.ncpu ≤ i ∧ i < g'.ncpu
    · rw [if_pos late, if_pos (by omega)]
    · rw [if_neg late]
      by_cases early : g.ncpu ≤ i ∧ i < g₁.ncpu
      · rw [if_pos early, if_pos (by omega)]
      · rw [if_neg early, if_neg (by omega)]

theorem Passed.other (ioapicid : Byte) (later : Passed ids { g with ioapicid := ioapicid } g') :
    Passed ids g g' :=
  ⟨later.ncpu, later.ismp, later.lapic, later.id⟩

theorem entrySize_processor {n : Word} (type : mem p = mpproc) :
    entrySize (mem p) = some n ↔ n = 20 := by
  rw [entrySize, if_pos type, Option.some_inj, eq_comm]

theorem entrySize_other {n : Word} (other : mem p ≠ mpproc) :
    entrySize (mem p) = some n ↔
      n = 8 ∧ (mem p = mpioapic ∨ mem p = mpbus ∨ mem p = mpiointr ∨ mem p = mplintr) := by
  rw [entrySize, if_neg other]
  split
  · next named => rw [Option.some_inj, eq_comm, and_iff_left named]
  · next unknown => simp [unknown]

namespace Entries

variable {l l' : List Word} {q : Word}

theorem unique (first : Entries mem e p l) (second : Entries mem e p l') : l = l' := by
  induction first generalizing l' with
  | done ends =>
    cases second with
    | done => rfl
    | step inside => exact absurd inside ends
  | step inside known _ ih =>
    cases second with
    | done ends => exact absurd inside ends
    | step _ known' later =>
      rw [known] at known'
      cases known'
      rw [ih later]

theorem from_member (walked : Entries mem e p l) (member : q ∈ l) :
    ∃ rest, Entries mem e q (q :: rest) ∧ rest.length < l.length := by
  induction walked with
  | done => cases member
  | step inside known later ih =>
    rcases List.mem_cons.mp member with rfl | behind
    · exact ⟨_, .step inside known later, Nat.lt_succ_self _⟩
    · obtain ⟨rest, walked, shorter⟩ := ih behind
      exact ⟨rest, walked, Nat.lt_succ_of_lt shorter⟩

theorem nodup (walked : Entries mem e p l) : l.Nodup := by
  induction walked with
  | done => exact List.nodup_nil
  | step inside known later ih =>
    refine List.nodup_cons.mpr ⟨fun again => ?_, ih⟩
    obtain ⟨rest, walked, shorter⟩ := later.from_member again
    have same := unique walked (.step inside known later)
    rw [(List.cons.inj same).2] at shorter
    exact Nat.lt_irrefl _ shorter

theorem length_le (walked : Entries mem e p l) : l.length ≤ 2 ^ 32 := by
  have places : (l.map BitVec.toFin).Nodup :=
    walked.nodup.map fun a b same => BitVec.eq_of_toFin_eq same
  have few := places.length_le_card
  rwa [List.length_map, Fintype.card_fin] at few

end Entries

theorem apicids_processor (type : mem p = mpproc) (rest : List Word) :
    apicids mem (p :: rest) = [(mem (p + 1)).toNat] ++ apicids mem rest := by
  simp [apicids, type]

theorem apicids_other (other : mem p ≠ mpproc) (rest : List Word) :
    apicids mem (p :: rest) = apicids mem rest := by
  simp [apicids, other]

theorem entryLoop_other (g : Cpus) (turns : Nat) (inside : p < e) (other : mem p ≠ mpproc)
    (type : mem p = mpioapic ∨ mem p = mpbus ∨ mem p = mpiointr ∨ mem p = mplintr) :
    ∃ ioapicid, entryLoop mem e (turns + 1) p g =
      entryLoop mem e turns (p + 8) { g with ioapicid := ioapicid } := by
  rw [entryLoop, if_pos inside, if_neg other]
  by_cases apic : mem p = mpioapic
  · exact ⟨_, if_pos apic⟩
  · refine ⟨g.ioapicid, ?_⟩
    rw [if_neg apic, if_pos (type.resolve_left apic)]

theorem entryLoop_walk {l : List Word} {turns : Nat} (walked : Entries mem e p l)
    (enough : l.length < turns) (few : g.ncpu + (apicids mem l).length ≤ ncpuMax) :
    ∃ g', entryLoop mem e turns p g = .ok g' := by
  induction walked generalizing g turns with
  | done ends =>
    obtain _ | turns := turns
    · omega
    exact ⟨g, by rw [entryLoop, if_neg ends]⟩
  | @step p n rest inside known later ih =>
    obtain _ | turns := turns
    · omega
    rw [List.length_cons] at enough
    by_cases type : mem p = mpproc
    · rw [apicids_processor type, List.length_append, List.length_singleton] at few
      obtain ⟨g₁, counted, passed⟩ := processor_ok mem p (show g.ncpu < ncpuMax by omega)
      have more := passed.ncpu
      rw [List.length_singleton] at more
      obtain ⟨g', ran⟩ := @ih g₁ turns (by omega) (by omega)
      rw [(entrySize_processor type).mp known] at ran
      refine ⟨g', ?_⟩
      rw [entryLoop, if_pos inside, if_pos type, counted]
      exact ran
    · rw [apicids_other type] at few
      obtain ⟨size, named⟩ := (entrySize_other type).mp known
      obtain ⟨ioapicid, turn⟩ := entryLoop_other g turns inside type named
      obtain ⟨g', ran⟩ := @ih { g with ioapicid := ioapicid } turns (by omega) few
      rw [size] at ran
      exact ⟨g', turn.trans ran⟩

theorem entryLoop_stays (inside : p < e) (unknown : entrySize (mem p) = none) (turns : Nat)
    (g : Cpus) : entryLoop mem e turns p g = .error .diverges := by
  have other : mem p ≠ mpproc ∧
      ¬ (mem p = mpioapic ∨ mem p = mpbus ∨ mem p = mpiointr ∨ mem p = mplintr) := by
    unfold entrySize at unknown
    split at unknown
    · cases unknown
    · next processor =>
      split at unknown
      · cases unknown
      · next named => exact ⟨processor, named⟩
  induction turns generalizing g with
  | zero => rfl
  | succ turns ih =>
    rw [entryLoop, if_pos inside, if_neg other.1, if_neg fun apic => other.2 (.inl apic),
      if_neg fun named => other.2 (.inr named)]
    exact ih _

theorem entryLoop_ok {turns : Nat} (ran : entryLoop mem e turns p g = .ok g')
    (room : g.ncpu ≤ ncpuMax) :
    ∃ l, Entries mem e p l ∧ g'.ncpu ≤ ncpuMax ∧ Passed (apicids mem l) g g' := by
  induction turns generalizing p g with
  | zero => cases ran
  | succ turns ih =>
    by_cases inside : p < e
    · by_cases type : mem p = mpproc
      · rw [entryLoop, if_pos inside, if_pos type] at ran
        obtain ⟨g₁, counted, ran⟩ := Transition.bind_ok.mp ran
        have free : g.ncpu < ncpuMax := by
          by_contra full
          rw [processor, addCpu, if_neg (by rwa [ncpu_markBoot, ncpu_checkId])] at counted
          cases counted
        obtain ⟨g₂, counted', passed⟩ := processor_ok mem p free
        rw [counted] at counted'
        cases counted'
        have more := passed.ncpu
        rw [List.length_singleton] at more
        obtain ⟨l, walked, bound, passed'⟩ := ih ran (by omega)
        refine ⟨p :: l, .step inside ((entrySize_processor type).mpr rfl) walked, bound, ?_⟩
        rw [apicids_processor type]
        exact passed.append passed'
      · cases known : entrySize (mem p) with
        | none =>
          rw [entryLoop_stays inside known] at ran
          cases ran
        | some n =>
          obtain ⟨rfl, named⟩ := (entrySize_other type).mp known
          obtain ⟨ioapicid, turn⟩ := entryLoop_other g turns inside type named
          rw [turn] at ran
          obtain ⟨l, walked, bound, passed⟩ := ih ran room
          refine ⟨p :: l, .step inside known walked, bound, ?_⟩
          rw [apicids_other type]
          exact .other ioapicid passed
    · rw [entryLoop, if_neg inside] at ran
      cases ran
      exact ⟨[], .done inside, room, .nil _⟩

/-- `mpinit` on a table that it accepts. It returns, with every store to `cpus[]` in its bounds,
exactly when the walk over the table comes to its end through entries of known types with no more
processors than `cpus[]` has room for. Then every processor is in its place, or, when the APIC ids
are not those of the places, there is one processor and no local APIC. -/
theorem mpinit_returns {mp : Word} (accepted : mpconfig mem = some (mp, conf)) :
    ((∃ g, mpinit mem = .ok g) ↔
      ∃ l, TableEntries mem conf l ∧ (apicids mem l).length ≤ ncpuMax) ∧
    ∀ g l, mpinit mem = .ok g → TableEntries mem conf l →
      (apicids mem l ≠ List.range (apicids mem l).length →
        g.ismp = false ∧ g.ncpu = 1 ∧ g.lapic = 0) ∧
      (apicids mem l = List.range (apicids mem l).length →
        g.ismp = true ∧ g.ncpu = (apicids mem l).length ∧ g.ncpu ≤ ncpuMax ∧
          g.lapic = lapicaddr mem conf ∧ ∀ i < g.ncpu, g.id i = BitVec.ofNat 8 i) := by
  rw [mpinit, accepted]
  dsimp only
  constructor
  · constructor
    · rintro ⟨g, ran⟩
      obtain ⟨g₁, looped, -⟩ := Transition.bind_ok.mp ran
      obtain ⟨l, walked, bound, passed⟩ := entryLoop_ok looped (Nat.zero_le _)
      have counted : g₁.ncpu = (apicids mem l).length := passed.ncpu.trans (Nat.zero_add _)
      exact ⟨l, walked, by omega⟩
    · rintro ⟨l, walked, few⟩
      have enough : l.length < 2 ^ 32 + 1 := Nat.lt_succ_of_le walked.length_le
      obtain ⟨g, looped⟩ := entryLoop_walk
        (g := { Cpus.boot with ismp := true, lapic := lapicaddr mem conf }) walked enough
        ((Nat.zero_add _).trans_le few)
      rw [looped]
      cases multi : g.ismp with
      | true => exact ⟨_, if_pos multi⟩
      | false => exact ⟨_, if_neg (by rw [multi]; nofun)⟩
  · intro g l ran walked
    obtain ⟨g₁, looped, ends⟩ := Transition.bind_ok.mp ran
    obtain ⟨l', walked', bound, passed⟩ := entryLoop_ok looped (Nat.zero_le _)
    obtain rfl := walked.unique walked'
    generalize apicids mem l = ids at passed ⊢
    have counted : g₁.ncpu = ids.length := passed.ncpu.trans (Nat.zero_add _)
    have multi : g₁.ismp = true ↔ ids = List.range ids.length := by
      rw [passed.ismp, List.range_eq_range']
      exact and_iff_right rfl
    by_cases right : ids = List.range ids.length
    · rw [if_pos (multi.mpr right)] at ends
      cases ends
      refine ⟨fun wrong => absurd right wrong,
        fun _ => ⟨multi.mpr right, counted, bound, passed.lapic, fun i low => ?_⟩⟩
      rw [passed.id, if_pos ⟨Nat.zero_le i, low⟩]
    · have single : g₁.ismp = false := Bool.eq_false_iff.mpr fun set => right (multi.mp set)
      rw [if_neg (by rw [single]; nofun)] at ends
      cases ends
      exact ⟨fun _ => ⟨single, rfl, rfl⟩, fun same => absurd same right⟩

def put (a : Word) (bytes : List Byte) (mem : Memory) : Memory := fun x =>
  bytes.getD (x - a).toNat (mem x)

/-- The memory of a machine with a configuration table: the extended BIOS data area at `0x9FC00`
with the MP structure, which points to `0x9FD00`. `fix` is the checksum of the table. -/
def machine (fix : Byte) (entries : List Byte) : Memory :=
  put (bda + 0x0E) [0xC0, 0x9F] <|
  put (p2v 0x9FC00) (mpSignature ++ [0x00, 0xFD, 0x09, 0x00, 1, 4, 0x9A, 0, 0]) <|
  put (p2v 0x9FD00) (confSignature ++ [BitVec.ofNat 8 (44 + entries.length), 0, 4, fix] ++
    List.replicate 28 0 ++ [0, 0, 0xE0, 0xFE] ++ List.replicate 4 0 ++ entries) fun _ => 0

def cpuEntry (apicid : Byte) : List Byte := [mpproc, apicid, 0x14, 1] ++ List.replicate 16 0

def twoCpus : Memory := machine 0x6F (cpuEntry 0 ++ cpuEntry 1)

/-- `mpinit_returns` with two processors. -/
theorem mpinit_returns_two :
    mpconfig twoCpus = some (p2v 0x9FC00, p2v 0x9FD00) ∧
      TableEntries twoCpus (p2v 0x9FD00) [p2v 0x9FD2C, p2v 0x9FD40] ∧
      ∃ g, mpinit twoCpus = .ok g ∧ g.ismp = true ∧ g.ncpu = 2 := by
  have accepted : mpconfig twoCpus = some (p2v 0x9FC00, p2v 0x9FD00) := by decide +kernel
  have walked : TableEntries twoCpus (p2v 0x9FD00) [p2v 0x9FD2C, p2v 0x9FD40] :=
    .step (by decide +kernel) (n := 20) (by decide +kernel) <|
      .step (by decide +kernel) (n := 20) (by decide +kernel) <| .done (by decide +kernel)
  have ids : apicids twoCpus [p2v 0x9FD2C, p2v 0x9FD40] = [0, 1] := by decide +kernel
  obtain ⟨returns, places⟩ := mpinit_returns accepted
  obtain ⟨g, returned⟩ := returns.mpr ⟨_, walked, by rw [ids]; decide⟩
  obtain ⟨-, right⟩ := places g _ returned walked
  rw [ids] at right
  obtain ⟨multi, count, -⟩ := right rfl
  exact ⟨accepted, walked, g, returned, multi, count⟩

def strangeEntry : Memory := machine 0xB5 ([5] ++ List.replicate 7 0)

def nineCpus : Memory := machine 0x2D ((List.range 9).flatMap fun i => cpuEntry (BitVec.ofNat 8 i))

/-- Two tables that `mpconfig` accepts: with the first one the loop never ends, whatever number of
turns it is given, and with the second one the ninth processor is stored behind `cpus[]`. -/
theorem mpinit_fails :
    (mpconfig strangeEntry = some (p2v 0x9FC00, p2v 0x9FD00) ∧
      ∀ turns g, entryLoop strangeEntry (confEnd strangeEntry (p2v 0x9FD00)) turns
        (p2v 0x9FD00 + confSize) g = .error .diverges) ∧
    (mpconfig nineCpus = some (p2v 0x9FC00, p2v 0x9FD00) ∧
      mpinit nineCpus = .error .outOfBounds) := by
  have accepted : mpconfig nineCpus = some (p2v 0x9FC00, p2v 0x9FD00) := by decide +kernel
  refine ⟨⟨by decide +kernel, ?_⟩, accepted, ?_⟩
  · exact entryLoop_stays (by decide +kernel) (by decide +kernel)
  · rw [mpinit, accepted]
    exact Transition.eq_of_stops (by decide +kernel)

end Mp

end Xv6
