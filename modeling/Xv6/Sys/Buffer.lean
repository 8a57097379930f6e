import Xv6.Fs.View
import Xv6.Sys.ReadWrite

/-!
# The user buffer of read and write

The steps of `sys_read` and `sys_write` copy only bytes of the buffer that the arguments name,
except where `fileread` is called with a negative number of bytes: it passes the check of `argptr`
and is a large one for `readi`, which copies the rest of the file if there is any and the end of
the range does not wrap.
-/

namespace Xv6

open BitVec (ofNat ofInt)
open Bytes (Byte)
open Program

namespace IoSystem

variable {s s' : IoSystem} {start : Caller} {p addr : Word} {n : Nat}

theorem mem_addresses {a : Word} :
    a ∈ addresses addr n ↔ ∃ i < n, addr + ofNat 32 i = a := by
  rw [addresses, List.mem_map]
  simp only [List.mem_range]

theorem addresses_part {offset length : Nat} (inside : offset + length ≤ n) :
    addresses (p + ofNat 32 offset) length ⊆ addresses p n := by
  intro a member
  obtain ⟨i, bound, rfl⟩ := mem_addresses.mp member
  refine mem_addresses.mpr ⟨offset + i, by omega, ?_⟩
  rw [BitVec.ofNat_add, BitVec.add_assoc]

structure Confined (start : Caller) (p : Word) (n : Nat) (s : IoSystem) : Prop where
  touched : s.touched ⊆ addresses p n
  mem : ∀ a, a ∉ s.touched → s.caller.mem a = start.mem a

namespace Confined

theorem refl (clean : s.touched = []) : Confined s.caller p n s :=
  ⟨by rw [clean]; exact List.nil_subset _, fun _ _ => rfl⟩

section

variable (confined : Confined start p n s)
include confined

theorem copyOut {bytes : List Byte} (offset : Nat) (inside : offset + bytes.length ≤ n)
    (place : addr = p + ofNat 32 offset) : Confined start p n (s.copyOut addr bytes) := by
  subst place
  refine ⟨List.append_subset.mpr ⟨confined.touched, addresses_part inside⟩, fun a outside => ?_⟩
  obtain ⟨old, new⟩ := not_or.mp fun either => outside (List.mem_append.mpr either)
  refine (ByteSpace.write_outside ?_).trans (confined.mem a old)
  by_contra near
  refine new (mem_addresses.mpr ⟨_, Nat.lt_of_not_le near, ?_⟩)
  rw [BitVec.ofNat_toNat, BitVec.setWidth_eq, BitVec.add_comm, BitVec.sub_add_cancel]

theorem copyIn {length : Nat} (offset : Nat) (inside : offset + length ≤ n)
    (place : addr = p + ofNat 32 offset) : Confined start p n (s.copyIn addr length).2 := by
  subst place
  refine ⟨List.append_subset.mpr ⟨confined.touched, addresses_part inside⟩, fun a outside => ?_⟩
  exact confined.mem a fun old => outside (List.mem_append.mpr (.inl old))

theorem congr (caller : s'.caller = s.caller) (touched : s'.touched = s.touched) :
    Confined start p n s' :=
  ⟨touched ▸ confined.touched, by rw [caller, touched]; exact confined.mem⟩

theorem mono {m : Nat} (larger : n ≤ m) : Confined start p m s := by
  refine ⟨fun a member => ?_, confined.mem⟩
  obtain ⟨i, bound, at_⟩ := mem_addresses.mp (confined.touched member)
  exact mem_addresses.mpr ⟨i, Nat.lt_of_lt_of_le bound larger, at_⟩

end

end Confined

/-- The step calls `readi` of a file that is no device, with a negative number of bytes, and there
are bytes from the offset on. -/
def overreads (s : IoSystem) : IoAction → Bool
  | .advance =>
    match s.pc with
    | .fileread f _ n =>
      let file := s.world.file f
      let din := s.world.fs.lockedDinode file.ip
      decide (n < 0 ∧ din.type ≠ tDev ∧ file.off < din.size ∧ file.off ≤ file.off + ofInt 32 n)
    | _ => false
  | _ => false

end IoSystem

namespace Fs

variable {fs : Fs} {ip : InodePtr} {off n : Word}

theorem wp_ilock_din : Wp (ilock ip) (fun _ fs' => (fs'.inode ip).din = fs.lockedDinode ip)
    (fun _ => True) fs := by
  rw [ilock, wp_bind, wp_getInode]
  split
  · trivial
  · split
    · trivial
    · split
      · rename_i valid
        rw [wp_setInode, put_inode, if_pos rfl, lockedDinode, if_pos valid]
      · rename_i invalid
        rw [wp_bind, wp_get, wp_bind, wp_setInode]
        split
        · trivial
        · rw [wp_pure, put_inode, if_pos rfl, lockedDinode, if_neg invalid]

theorem wp_readLocked : Wp (readLocked ip off n) (fun r _ =>
    if (fs.lockedDinode ip).type = tDev then r.copied.length ≤ n.toInt.toNat
    else r.copied.length = readCount (fs.lockedDinode ip) off n) (fun _ => True) fs := by
  rw [readLocked, wp_bind]
  refine wp_ilock_din.imp fun _ fs₁ locked => ?_
  have unlock : ∀ {r : ReadResult} {fs : Fs} {done : ReadResult → Prop}, done r →
      Wp (iunlock ip >>= fun _ => pure r) (fun r _ => done r) (fun _ => True) fs := by
    intro r fs done holds
    rw [wp_bind]
    exact wp_of_forall (fun _ _ _ => holds) fun _ _ => trivial
  rw [wp_bind, ← locked]
  split
  · rename_i device
    exact (wp_readi_device device).imp fun r _ length => unlock length
  · rename_i file
    exact (wp_readi_count file).imp fun r _ length => unlock length

end Fs

def IoPc.On (p : Word) (n : Int) : IoPc → Prop
  | .outside => False
  | .readWait _ addr m => addr = p ∧ m = n
  | .readCopy _ addr m i => addr = p ∧ m = n ∧ 0 ≤ i
  | .writeWait _ addr m i => addr = p ∧ m = n ∧ 0 ≤ i
  | .writeLoop _ addr m i => addr = p ∧ m = n ∧ 0 ≤ i
  | .fileread _ addr m => addr = p ∧ m = n
  | .filewrite _ addr m i => addr = p ∧ m = n ∧ 0 ≤ i
  | .returned _ => True

namespace IoSystem

variable {s s' s₀ : IoSystem} {start : Caller} {p : Word} {n : Int}

theorem onFs_ok {α : Type} {program : FsM α} {r : α} (ran : s.onFs program = .ok (r, s')) :
    ∃ fs, program s.world.fs = .ok (r, fs) ∧ s'.caller = s.caller ∧ s'.touched = s.touched := by
  obtain ⟨⟨r', fs⟩, returned, same⟩ := Transition.bind_ok.mp ran
  cases same
  exact ⟨fs, returned, rfl, rfl⟩

theorem readInode_ok {f : FilePtr} {addr : Word} (ran : s.readInode f addr n = .ok s') :
    ∃ r : Fs.ReadResult,
      (if (s.world.fs.lockedDinode (s.world.file f).ip).type = tDev then
        r.copied.length ≤ (ofInt 32 n).toInt.toNat
      else r.copied.length = Fs.readCount (s.world.fs.lockedDinode (s.world.file f).ip)
        (s.world.file f).off (ofInt 32 n)) ∧
      s'.touched = (s.copyOut addr r.copied).touched ∧
      s'.caller = (s.copyOut addr r.copied).caller ∧ ∃ result, s'.pc = .returned result := by
  rw [readInode] at ran
  obtain ⟨⟨r, s₁⟩, onFs, rest⟩ := Transition.bind_ok.mp ran
  obtain ⟨fs, returned, caller, touched⟩ := onFs_ok onFs
  have copied : ∀ bytes, (s₁.copyOut addr bytes).touched = (s.copyOut addr bytes).touched ∧
      (s₁.copyOut addr bytes).caller = (s.copyOut addr bytes).caller := by
    intro bytes
    simp only [copyOut, caller, touched, and_self]
  refine ⟨r, Fs.wp_readLocked.ok returned, ?_⟩
  cases r with
  | error bytes =>
    cases rest
    exact ⟨(copied bytes).1, (copied bytes).2, _, rfl⟩
  | ok bytes =>
    cases rest
    exact ⟨(copied bytes).1, (copied bytes).2, _, rfl⟩

theorem ofInt_eq {i : Int} (positive : 0 ≤ i) : ofInt 32 i = ofNat 32 i.toNat := by
  obtain ⟨k, rfl⟩ := Int.eq_ofNat_of_zero_le positive
  rw [BitVec.ofInt_natCast, Int.toNat_natCast]

/-- The call is under way and has copied bytes of its buffer only. A negative number of bytes is
none. -/
structure Under (start : Caller) (p : Word) (n : Int) (s : IoSystem) : Prop where
  confined : Confined start p n.toNat s
  on : s.pc.On p n

section

variable (confined : Confined start p n.toNat s)
include confined

theorem Under.finish (r : Int) : Under start p n (s.finish r) :=
  ⟨confined.congr rfl rfl, trivial⟩

variable {q : PipePtr}

theorem under_readWait (on : s.pc.On p n) : Under start p n (s.readWait q p n) := by
  rw [readWait]
  split
  · split
    · exact .finish confined _
    · exact ⟨confined, on⟩
  · exact ⟨confined.congr rfl rfl, rfl, rfl, Int.le_refl 0⟩

theorem under_readCopy {i : Int} (started : 0 ≤ i) : Under start p n (s.readCopy q p n i) := by
  rw [readCopy]
  dsimp only
  split
  · exact .finish confined _
  · rename_i more
    have inside := Int.not_le.mp (not_or.mp more).1
    have place : p + ofInt 32 i = p + ofNat 32 i.toNat := by rw [ofInt_eq started]
    refine ⟨Confined.congr (confined.copyOut i.toNat ?_ place) rfl rfl, rfl, rfl, by omega⟩
    rw [List.length_singleton]
    omega

theorem under_writeLoop {i : Int} (started : 0 ≤ i) : Under start p n (s.writeLoop q p n i) := by
  rw [writeLoop]
  dsimp only
  split
  · exact .finish confined _
  · rename_i more
    split
    · split
      · exact .finish confined _
      · exact ⟨confined.congr rfl rfl, rfl, rfl, started⟩
    · have place : p + ofInt 32 i = p + ofNat 32 i.toNat := by
        rw [ofInt_eq started]
      exact ⟨Confined.congr (confined.copyIn i.toNat (by omega) place) rfl rfl, rfl, rfl, by omega⟩

theorem under_readInode {f : FilePtr} {w : Word} (size : w.toInt = n)
    (here : s.pc = .fileread f p n)
    (covers : s.overreads .advance = false) (ran : s.readInode f p n = .ok s') :
    Under start p n s' := by
  obtain ⟨r, length, touched, caller, result, pc⟩ := readInode_ok ran
  have number : ofInt 32 n = w := by rw [← size, BitVec.ofInt_toInt]
  have few : r.copied.length ≤ n.toNat := by
    rw [number] at length
    split at length
    · rwa [size] at length
    · rename_i file
      rw [length]
      by_cases sign : 0 ≤ n
      · have wide : w.toNat = n.toNat := by
          rw [BitVec.toInt_eq_toNat_cond] at size
          split at size <;> omega
        rw [← wide]
        exact Fs.readCount_le ..
      · simp only [overreads, here, number] at covers
        rw [Fs.readCount_eq_zero]
        · exact Nat.zero_le _
        · by_contra some
          obtain ⟨more, straight⟩ := not_or.mp some
          exact of_decide_eq_false covers
            ⟨Int.not_le.mp sign, file, BitVec.not_le.mp more, BitVec.not_lt.mp straight⟩
  have copied : Confined start p n.toNat (s.copyOut p r.copied) :=
    confined.copyOut 0 (by rwa [Nat.zero_add]) (BitVec.add_zero p).symm
  exact ⟨copied.congr caller touched, by rw [pc]; trivial⟩

theorem under_writeInode {f : FilePtr} {i : Int} (started : 0 ≤ i)
    (ran : s.writeInode f p n i = .ok s') : Under start p n s' := by
  rw [writeInode] at ran
  split at ran
  · cases ran
    exact .finish confined _
  · rename_i more
    have chunk : i.toNat + (if maxChunk < n - i then maxChunk else n - i).toNat ≤ n.toNat := by
      split <;> omega
    dsimp only at ran
    generalize (if maxChunk < n - i then maxChunk else n - i) = n₁ at ran chunk
    obtain ⟨⟨r, s₁⟩, onFs, rest⟩ := Transition.bind_ok.mp ran
    obtain ⟨fs, returned, caller, touched⟩ := onFs_ok onFs
    have place : p + ofInt 32 i = p + ofNat 32 i.toNat := by rw [ofInt_eq started]
    have confined₁ : Confined start p n.toNat s₁ :=
      (confined.copyIn i.toNat chunk place).congr caller touched
    dsimp only at rest
    split at rest
    · cases rest
      exact .finish confined₁ _
    · rename_i written
      split at rest
      · cases rest
      · cases rest
        exact ⟨confined₁.congr rfl rfl, rfl, rfl, by omega⟩

end

variable {w : Word} {f : FilePtr}

theorem under_advance (under : Under start p n s) (size : w.toInt = n)
    (covers : s.overreads .advance = false) (ran : s.advance = .ok s') : Under start p n s' := by
  obtain ⟨confined, on⟩ := under
  have here := on
  rw [advance] at ran
  split at ran
  all_goals (rename_i now; rw [now] at here)
  · obtain ⟨rfl, rfl⟩ := here
    cases ran
    exact under_readWait confined on
  · obtain ⟨rfl, rfl, started⟩ := here
    cases ran
    exact under_readCopy confined started
  · obtain ⟨rfl, rfl, started⟩ := here
    cases ran
    exact ⟨confined.congr rfl rfl, rfl, rfl, started⟩
  · obtain ⟨rfl, rfl, started⟩ := here
    cases ran
    exact under_writeLoop confined started
  · obtain ⟨rfl, rfl⟩ := here
    exact under_readInode confined size now covers ran
  · obtain ⟨rfl, rfl, started⟩ := here
    exact under_writeInode confined started ran
  · cases ran
  · cases ran

/-- How far a call has come. -/
inductive Progress (s₀ s : IoSystem) : Prop where
  | before (pc : s.pc = .outside) (caller : s.caller = s₀.caller) (ofile : s.ofile = s₀.ofile)
    (clean : s.touched = [])
  | refused (bad : s₀.arguments = none) (pc : s.pc = .returned (-1)) (caller : s.caller = s₀.caller)
    (clean : s.touched = [])
  | during (f : FilePtr) (p n : Word) (good : s₀.arguments = some (f, p, n))
    (under : Under s₀.caller p n.toInt s)

theorem others_same (s : IoSystem) (world : World) :
    (s.others world).pc = s.pc ∧ (s.others world).caller = s.caller ∧
      (s.others world).ofile = s.ofile ∧ (s.others world).touched = s.touched := by
  rw [others]
  split <;> exact ⟨rfl, rfl, rfl, rfl⟩

theorem arguments_congr (caller : s.caller = s₀.caller) (ofile : s.ofile = s₀.ofile) :
    s.arguments = s₀.arguments := by
  rw [arguments, arguments, argfd, argfd, caller, ofile]

theorem under_fileread (confined : Confined start p n.toNat s) (ran : s.fileread f p n = .ok s') :
    Under start p n s' := by
  rw [fileread] at ran
  split at ran
  · cases ran
    exact .finish confined _
  · split at ran
    · cases ran
      exact ⟨confined.congr rfl rfl, rfl, rfl⟩
    · cases ran
      exact ⟨confined.congr rfl rfl, rfl, rfl⟩
    · cases ran

theorem under_filewrite (confined : Confined start p n.toNat s) (ran : s.filewrite f p n = .ok s') :
    Under start p n s' := by
  rw [filewrite] at ran
  split at ran
  · cases ran
    exact .finish confined _
  · split at ran
    · cases ran
      exact ⟨confined.congr rfl rfl, rfl, rfl, Int.le_refl 0⟩
    · cases ran
      exact ⟨confined.congr rfl rfl, rfl, rfl, Int.le_refl 0⟩
    · cases ran

theorem argint_of_arguments (good : s.arguments = some (f, p, w)) :
    s.caller.argint 2 = some w ∧ s.caller.argptr 1 w = some p := by
  obtain ⟨_, -, rest⟩ := Option.bind_eq_some_iff.mp good
  obtain ⟨_, size, rest⟩ := Option.bind_eq_some_iff.mp rest
  obtain ⟨_, pointer, same⟩ := Option.bind_eq_some_iff.mp rest
  cases same
  exact ⟨size, pointer⟩

theorem progress_step {action : IoAction} (progress : Progress s₀ s)
    (covers : s.overreads action = false) (ran : s.step action = .ok s') : Progress s₀ s' := by
  cases progress with
  | before pc caller ofile clean =>
    have same : s.arguments = s₀.arguments := arguments_congr caller ofile
    have refuse : s₀.arguments = none → s.finish (-1) = s' → Progress s₀ s' := by
      rintro bad rfl
      exact .refused bad rfl caller clean
    cases action with
    | read =>
      simp only [step, pc, sysRead, same] at ran
      split at ran
      case h_1 f p n good => exact .during f p n good (caller ▸ under_fileread (.refl clean) ran)
      case h_2 bad => exact refuse bad (Except.ok.inj ran)
    | write =>
      simp only [step, pc, sysWrite, same] at ran
      split at ran
      case h_1 f p n good => exact .during f p n good (caller ▸ under_filewrite (.refl clean) ran)
      case h_2 bad => exact refuse bad (Except.ok.inj ran)
    | advance =>
      rw [step, advance, pc] at ran
      cases ran
    | others world =>
      cases ran
      obtain ⟨pc', caller', ofile', touched'⟩ := others_same s world
      exact .before (pc'.trans pc) (caller'.trans caller) (ofile'.trans ofile)
        (touched'.trans clean)
  | refused bad pc caller clean =>
    cases action with
    | others world =>
      cases ran
      obtain ⟨pc', caller', -, touched'⟩ := others_same s world
      exact .refused bad (pc'.trans pc) (caller'.trans caller) (touched'.trans clean)
    | _ =>
      simp only [step, advance, pc] at ran
      cases ran
  | during f p n good under =>
    have inside : s.pc ≠ .outside := by
      intro now
      have on := under.on
      rw [now] at on
      exact on
    cases action with
    | advance => exact .during f p n good (under_advance under rfl covers ran)
    | others world =>
      cases ran
      obtain ⟨pc', caller', -, touched'⟩ := others_same s world
      exact .during f p n good ⟨under.confined.congr caller' touched', pc' ▸ under.on⟩
    | read =>
      rw [step] at ran
      split at ran
      · rename_i now
        exact absurd now inside
      · cases ran
    | write =>
      rw [step] at ran
      split at ran
      · rename_i now
        exact absurd now inside
      · cases ran

structure Overrun (s₀ s : IoSystem) : Prop where
  returned : ∃ r, s.pc = .returned r
  copied : s.touched ≠ []
  negative : ∃ f p n, s₀.arguments = some (f, p, n) ∧ n.toInt < 0 ∧ Confined s₀.caller p n.toNat s

theorem overrun_of_overreads {action : IoAction} (progress : Progress s₀ s)
    (beyond : s.overreads action = true) (ran : s.step action = .ok s') : Overrun s₀ s' := by
  cases action with
  | read => cases beyond
  | write => cases beyond
  | others world => cases beyond
  | advance =>
    rw [overreads] at beyond
    split at beyond
    case h_2 => cases beyond
    case h_1 f addr m now =>
    obtain ⟨sign, file, inside, straight⟩ := of_decide_eq_true beyond
    cases progress with
    | before pc => cases now.symm.trans pc
    | refused bad pc => cases now.symm.trans pc
    | during f₀ p n good under =>
      have on := under.on
      rw [now] at on
      obtain ⟨rfl, rfl⟩ := on
      rw [step, advance, now] at ran
      obtain ⟨r, length, touched, caller, result, pc⟩ := readInode_ok ran
      rw [if_neg file, BitVec.ofInt_toInt] at length
      rw [BitVec.ofInt_toInt] at straight
      -- a negative number of bytes is not zero
      have positive : n ≠ 0 := by
        rintro rfl
        exact absurd sign (by decide)
      have some : 0 < r.copied.length := length ▸ Fs.readCount_pos inside straight positive
      have few : r.copied.length ≤ n.toNat := length ▸ Fs.readCount_le ..
      have none : n.toInt.toNat ≤ n.toNat := by omega
      have copied : Confined s₀.caller addr n.toNat (s.copyOut addr r.copied) :=
        (under.confined.mono none).copyOut 0 (by rwa [Nat.zero_add]) (BitVec.add_zero addr).symm
      refine ⟨⟨result, pc⟩, ?_, f₀, addr, n, good, sign, copied.congr caller touched⟩
      rw [touched]
      refine List.append_ne_nil_of_right_ne_nil _ ?_
      rw [← List.length_pos_iff, addresses, List.length_map, List.length_range]
      exact some

theorem overrun_step {action : IoAction} (overrun : Overrun s₀ s) (ran : s.step action = .ok s') :
    Overrun s₀ s' := by
  obtain ⟨⟨r, pc⟩, some, f, p, n, good, sign, confined⟩ := overrun
  cases action with
  | others world =>
    cases ran
    obtain ⟨pc', caller', -, touched'⟩ := others_same s world
    exact ⟨⟨r, pc'.trans pc⟩, touched'.symm ▸ some, f, p, n, good, sign,
      confined.congr caller' touched'⟩
  | _ =>
    simp only [step, advance, pc] at ran
    cases ran

theorem progress_or_overrun {actions : List IoAction} (idle : s.pc = .outside)
    (clean : s.touched = []) (run : Transition.run step s actions = .ok s') :
    Progress s s' ∨ Overrun s s' := by
  refine Transition.run_invariant (fun s' => Progress s s' ∨ Overrun s s') ?_
    (.inl (.before idle rfl rfl clean)) run
  rintro s₁ action s₂ (progress | overrun) ran
  · by_cases beyond : s₁.overreads action = true
    · exact .inr (overrun_of_overreads progress beyond ran)
    · exact .inl (progress_step progress (Bool.eq_false_iff.mpr beyond) ran)
  · exact .inr (overrun_step overrun ran)

theorem overrun_of_occurs {actions : List IoAction} (idle : s.pc = .outside)
    (clean : s.touched = []) (run : Transition.run step s actions = .ok s')
    (occurs : Transition.Occurs step (fun s a _ => ¬ s.overreads a = false) s actions) :
    Overrun s s' := by
  obtain ⟨before, action, after, middle, next, rfl, front, taken, beyond⟩ := occurs
  obtain ⟨middle', front', rest⟩ := Transition.run_append.mp run
  obtain rfl := Except.ok.inj (front.symm.trans front')
  obtain ⟨next', taken', tail⟩ := Transition.run_cons.mp rest
  obtain rfl := Except.ok.inj (taken.symm.trans taken')
  have start : Overrun s next := by
    rcases progress_or_overrun idle clean front with progress | overrun
    · exact overrun_of_overreads progress (Bool.eq_true_of_not_eq_false beyond) taken
    · exact overrun_step overrun taken
  exact Transition.run_invariant (Overrun s) (fun _ _ _ => overrun_step) start tail

theorem inside_of_mem (small : s.caller.sz < kernbase) (good : s.arguments = some (f, p, w))
    {a : Word} (member : a ∈ addresses p w.toInt.toNat) :
    p.toNat ≤ a.toNat ∧ (a.toNat : Int) < p.toNat + w.toInt ∧ a < s.caller.sz := by
  obtain ⟨size, pointer⟩ := argint_of_arguments good
  obtain ⟨-, start, finish⟩ := Caller.argptr_some pointer
  have limit : s.caller.sz.toNat < 2 ^ 31 := BitVec.lt_def.mp small
  have start' := BitVec.lt_def.mp start
  have finish' := BitVec.le_def.mp finish
  obtain ⟨i, bound, rfl⟩ := mem_addresses.mp member
  have width : w.toInt = w.toNat ∧ w.toNat < 2 ^ 31 := by
    rw [BitVec.toInt_eq_toNat_cond] at bound ⊢
    have bits := w.isLt
    split <;> split at bound <;> omega
  rw [BitVec.toNat_add] at finish'
  rw [BitVec.lt_def, BitVec.toNat_add, BitVec.toNat_ofNat]
  omega

/-- What `sys_read` and `sys_write` copy, in every state of the call and however it is interleaved
with other processes. User bytes that were not copied are unchanged, and with bad arguments the
call returns -1 and copies nothing. The bytes copied lie behind one another from the pointer on, not
more of them than asked for, and below the size of the process, exactly if `fileread` was not
called with a negative number of bytes for a file that has bytes from the offset on. -/
theorem read_write_within {actions : List IoAction} (idle : s.pc = .outside)
    (clean : s.touched = []) (small : s.caller.sz < kernbase)
    (run : Transition.run step s actions = .ok s') :
    (∀ a, a ∉ s'.touched → s'.caller.mem a = s.caller.mem a) ∧
    (s.arguments = none → s'.touched = [] ∧ (s'.pc = .outside ∨ s'.pc = .returned (-1))) ∧
    ((∀ f p n, s.arguments = some (f, p, n) → ∀ a ∈ s'.touched,
      p.toNat ≤ a.toNat ∧ (a.toNat : Int) < p.toNat + n.toInt ∧ a < s.caller.sz) ↔
      Transition.Along step (fun s a => s.overreads a = false) s actions) := by
  have exceeds : Overrun s s' → ∃ f p n, s.arguments = some (f, p, n) ∧ ∃ a ∈ s'.touched,
      ¬ (p.toNat ≤ a.toNat ∧ (a.toNat : Int) < p.toNat + n.toInt ∧ a < s.caller.sz) := by
    rintro ⟨-, some, f, p, n, good, sign, -⟩
    obtain ⟨a, member⟩ := List.exists_mem_of_ne_nil _ some
    exact ⟨f, p, n, good, a, member, by omega⟩
  have never : (∀ f p n, s.arguments = some (f, p, n) → ∀ a ∈ s'.touched,
      p.toNat ≤ a.toNat ∧ (a.toNat : Int) < p.toNat + n.toInt ∧ a < s.caller.sz) →
      Transition.Along step (fun s a => s.overreads a = false) s actions := by
    intro within
    refine (Transition.along_iff_not_occurs run).mpr fun occurs => ?_
    obtain ⟨f, p, n, good, a, member, outside⟩ := exceeds (overrun_of_occurs idle clean run occurs)
    exact outside (within f p n good a member)
  refine ⟨?_, ?_, never, fun along => ?_⟩
  · rcases progress_or_overrun idle clean run with progress | ⟨-, -, _, _, _, -, -, confined⟩
    · cases progress with
      | before pc caller => exact fun _ _ => by rw [caller]
      | refused bad pc caller => exact fun _ _ => by rw [caller]
      | during f p n good under => exact under.confined.mem
    · exact confined.mem
  · intro bad
    rcases progress_or_overrun idle clean run with progress | ⟨-, -, _, _, _, good, -, -⟩
    · cases progress with
      | before pc caller ofile clean => exact ⟨clean, .inl pc⟩
      | refused _ pc caller clean => exact ⟨clean, .inr pc⟩
      | during f p n good => cases bad.symm.trans good
    · cases bad.symm.trans good
  · have progress : Progress s s' := Transition.run_invariant_along (Progress s)
      (fun _ _ _ => progress_step) (.before idle rfl rfl clean) along run
    intro f p n good a member
    cases progress with
    | before pc caller ofile clean =>
      rw [clean] at member
      cases member
    | refused bad pc caller clean =>
      rw [clean] at member
      cases member
    | during f' p' n' good' under =>
      cases good.symm.trans good'
      exact inside_of_mem small good (under.confined.touched member)

/-- A file of two bytes, open as descriptor 0 of a process of one page, with the arguments of a
system call for it on the stack. -/
def reader (p n : Word) : IoSystem where
  caller :=
    { sz := 0x1000
      esp := 0
      mem := ByteSpace.write (fun _ => 0) 4 ([0, p, n].flatMap Bytes.toBytes) }
  ofile fd := if fd = 0 then some 0 else none
  world :=
    { file := fun _ =>
        { type := .inode
          readable := true
          writable := true
          pipe := 0
          ip := 0
          off := 0 }
      pipe := fun _ => ⟨fun _ => 0, 0, 0, false, false⟩
      fs :=
        { sb := ⟨1000, 941, 200, 30, 2, 32, 58⟩
          disk := fun _ _ => 0x41414141
          logged := []
          outstanding := 0
          inode := fun _ =>
            { dev := rootDev
              inum := 2
              ref := 1
              busy := false
              valid := true
              din :=
                { Dinode.zero with type := tFile, nlink := 1, size := 2, addrs := fun _ => 100 } }
          typed := [] }
      killed := false }
  pc := .outside
  touched := []

/-- The two bytes are read to the buffer. -/
theorem read_write_within_page :
    ∃ s', Transition.run step (reader 0x800 2) [.read, .advance] = .ok s' ∧
    s'.touched = [0x800, 0x801] ∧ ∀ a ∈ s'.touched, a < 0x1000 := by
  have checked : Transition.ends (fun s => s.touched == [0x800, 0x801])
      (Transition.run step (reader 0x800 2) [.read, .advance]) = true := by
    decide +kernel
  obtain ⟨s', ran, touched⟩ := Transition.exists_of_ends checked
  have along : Transition.Along step (fun s a => s.overreads a = false) (reader 0x800 2)
      [.read, .advance] := by
    decide +kernel
  refine ⟨s', ran, beq_iff_eq.mp touched, fun a member => ?_⟩
  obtain ⟨-, -, inside⟩ := read_write_within rfl rfl (by decide) ran
  exact (inside.mpr along 0 0x800 2 (by decide +kernel) a member).2.2

/-- A read of -1 bytes at the end of the page is accepted, and the bytes of the file are copied
behind the end of the process. -/
theorem read_overruns : ∃ s', Transition.run step (reader 0xFFF (-1)) [.read, .advance] = .ok s' ∧
    0x1000 ∈ s'.touched ∧ s'.caller.sz = 0x1000 ∧ s'.caller.mem 0x1000 = 0x41 := by
  have checked : Transition.ends
      (fun s => s.touched.contains 0x1000 && s.caller.sz == 0x1000 && s.caller.mem 0x1000 == 0x41)
      (Transition.run step (reader 0xFFF (-1)) [.read, .advance]) = true := by
    decide +kernel
  obtain ⟨s', ran, found⟩ := Transition.exists_of_ends checked
  rw [Bool.and_eq_true, Bool.and_eq_true, List.contains_iff_mem, beq_iff_eq, beq_iff_eq] at found
  exact ⟨s', ran, found.1.1, found.1.2, found.2⟩

end IoSystem

end Xv6
