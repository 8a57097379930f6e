import Xv6.Vm.Stack

/-!
# Safety of exec

`exec` on every file and every argument list. The verdict on the program headers, the pages of the
stack and the lengths of the argument strings decide whether it returns, rejects what is malformed
and stores segments to fresh user pages only.
-/

namespace Xv6

open Bytes (Byte toBytes)
open ByteSpace (Memory)
open Program

namespace Vm

variable {k : Image} {s s₁ s₂ : Mem} {d sz oldpgdir : Word} {file : List Byte}
  {argv : List (List Byte)} {fault : Fault → Prop} {st : Stage} {ph : Proghdr}

theorem filling_start (fresh : Fresh k s d s₁)
    (kernel : ∀ b, Aligned b → s₁.entry d b = kernelEntry k b) :
    Filling k s d 0 s₁ ∧ AllUser s₁ d ∧ s₁.userMemory d = fun _ => 0 := by
  have unmapped : ∀ b, Aligned b → b < kernbase → s₁.frameOf d b = none := by
    intro b page user
    rw [Mem.frameOf, kernel b page, kernelEntry_user user, target_zero]
  have filling : Filling k s d 0 s₁ := by
    refine ⟨fresh, fun b page user => ?_, fun b page _ => kernel b page⟩
    rw [unmapped b page user]
    simp [firstPage]
  refine ⟨filling, fun b page user mapped => absurd (unmapped b page user) mapped, ?_⟩
  funext a
  rw [Mem.userMemory, filling.userFrame_none (Nat.zero_le _)]
  rfl

def elfOf (file : List Byte) : Elfhdr := Elfhdr.ofBytes (readi file 0 elfhdrSize).2

def segmentsOf (file : List Byte) : List Proghdr :=
  headers file (elfOf file).phnum (elfOf file).phoff

/-- The file has a header with the magic number, all program headers, and its segments are well
formed. -/
structure Executable (file : List Byte) : Prop where
  header : elfhdrSize.toNat ≤ file.length
  magic : (elfOf file).magic = elfMagic
  table : (segmentsOf file).length = (elfOf file).phnum
  wellFormed : ∀ ph ∈ segmentsOf file, ph.WellFormed file

def Stage.start (d : Word) (s : Mem) : Stage := ⟨0, false, s.present d, s.grants⟩

def verdict (file : List Byte) (d : Word) (s : Mem) : Verdict :=
  judge file (elfOf file).phnum (elfOf file).phoff (.start d s)

def Stage.Pushes (st : Stage) (argv : List (List Byte)) : Prop :=
  Pushable st.stacked.present (st.top.toNat - 4096) argv st.top 0

namespace Verdict

/-- The file is rejected, or it is loaded without a segment that wraps, and the arguments are passed
or refused. -/
def Accepts (argv : List (List Byte)) : Verdict → Prop
  | .rejected => True
  | .loaded st => st.Full ∨
      st.Tabled ∧ (Fits argv → st.wraps = false) ∧ (¬ Fits argv → st.Pushes argv)
  | _ => False

def Denies : Verdict → Prop
  | .denied => True
  | .loaded st => ¬ st.Full ∧ ¬ st.Tabled
  | _ => False

def Fails (argv : List (List Byte)) : Verdict → Prop
  | .rejected => True
  | .loaded st => st.Full ∨ ¬ Fits argv ∧ st.Pushes argv
  | _ => False

end Verdict

theorem Fresh.old (fresh : Fresh k s d s₁) (space : Space k s oldpgdir) :
    Space k s₁ oldpgdir ∧ s₁.held oldpgdir = s.held oldpgdir := by
  have same : ∀ v, s.Structural oldpgdir v → s₁.page v = s.page v := fun v structural =>
    fresh.kept v (space.structural_not_free structural)
  obtain ⟨space', tables, entries⟩ := space.congr s₁ same fresh.space.nodup fresh.space.pool
    fun r v held member => space.apart held (fresh.pool member)
  refine ⟨space', ?_⟩
  funext role
  cases role <;> simp only [Mem.held, Mem.frameAt, tables, entries]

theorem readi_header : (BitVec.ofInt 32 (readi file 0 elfhdrSize).1 < elfhdrSize) ↔
    file.length < elfhdrSize.toNat := by
  have start : ¬ (file.length < (0 : Word).toNat ∨ 0 + elfhdrSize < (0 : Word)) :=
    not_or.mpr ⟨Nat.not_lt_zero _, by decide⟩
  rw [readi, if_neg start]
  show BitVec.ofInt 32 ((if file.length < 52 then file.length - 0 else 52 : Nat) : Int) < 52#32 ↔
    file.length < 52
  split
  · rename_i short
    rw [BitVec.ofInt_natCast, BitVec.lt_def, BitVec.toNat_ofNat]
    show (file.length - 0) % 2 ^ 32 < 52 ↔ _
    omega
  · rename_i long
    exact ⟨fun less => absurd less (by decide), fun less => absurd less long⟩

theorem setupkvm_ready (nodup : s.freelist.Nodup) (managed : ∀ v ∈ s.freelist, Managed k v)
    (made : setupkvm k s = .ok (some d, s₁)) :
    (Ready k s d (.start d s₁) s₁ ∧ s₁.userMemory d = fun _ => 0) ∧
      ∀ count, s.outages = [] → 1025 + count ≤ s.freelist.length →
        (Stage.start d s₁).Plenty count := by
  have known : Wp (setupkvm k) (fun r s₁ => ∀ d, r = some d →
      (Ready k s d (.start d s₁) s₁ ∧ s₁.userMemory d = fun _ => 0) ∧
        ∀ count, s.outages = [] → 1025 + count ≤ s.freelist.length →
          (Stage.start d s₁).Plenty count) (fun _ => True) s := by
    refine wp_setupkvm nodup managed (fun _ _ _ _ => (by rintro _ ⟨⟩))
      fun d s₁ fresh stock kernel d' same => ?_
    cases same
    obtain ⟨filling, all, zero⟩ := filling_start fresh kernel
    have low : (0 : Word) < kernbase := by decide
    refine ⟨⟨⟨filling, all, low, rfl, rfl⟩, zero⟩, fun count calm enough n less => ?_⟩
    obtain ⟨calm', enough'⟩ := stock count calm enough
    show Mem.grants s₁ n = true
    simp only [Mem.grants, calm', List.getD_nil, List.take_nil, List.count_nil]
    simp only [Bool.not_false, Bool.true_and, decide_eq_true_eq]
    omega
  exact known.ok made d rfl

/-- The part of `exec` behind `setupkvm`: a directory is filled, and then it or the old one is
freed. -/
def execFill (k : Image) (oldpgdir pgdir : Word) (file : List Byte) (argv : List (List Byte)) :
    VmM (Option Loaded) := do
  match ← fillImage k pgdir file (elfOf file) argv with
  | none =>
    freevm k pgdir
    return none
  | some (sz, sp) =>
    switchuvm pgdir
    freevm k oldpgdir
    return some ⟨pgdir, sz, (elfOf file).entry, sp⟩

theorem wp_exec_start {post : Option Loaded → Mem → Prop} (nodup : s.freelist.Nodup)
    (managed : ∀ v ∈ s.freelist, Managed k v)
    (rejected : ¬ (elfhdrSize.toNat ≤ file.length ∧ (elfOf file).magic = elfMagic) → post none s)
    (starved : ∀ s', ¬ (s.outages = [] ∧ 1025 ≤ s.freelist.length) →
      setupkvm k s = .ok (none, s') → (∀ v, v ∉ s.freelist → s'.page v = s.page v) →
      post none s')
    (made : elfhdrSize.toNat ≤ file.length → (elfOf file).magic = elfMagic → ∀ d s₁,
      setupkvm k s = .ok (some d, s₁) → Wp (execFill k oldpgdir d file argv) post fault s₁) :
    Wp (exec k oldpgdir (some file) argv) post fault s := by
  rw [exec]
  simp only [readi_header]
  by_cases cut : file.length < elfhdrSize.toNat
  · rw [if_pos cut]
    exact rejected fun whole => Nat.not_lt.mpr whole.1 cut
  rw [if_neg cut]
  by_cases other : (Elfhdr.ofBytes (readi file 0 elfhdrSize).2).magic ≠ elfMagic
  · rw [if_pos other]
    exact rejected fun whole => other whole.2
  rw [if_neg other, wp_bind]
  have known : Wp (setupkvm k) (fun r s₁ => setupkvm k s = .ok (r, s₁)) (fun _ => True) s :=
    wp_of_forall (fun _ _ ran => ran) fun _ _ => trivial
  apply Wp.using known
  exact wp_setupkvm nodup managed (fun s' short _ same ran => starved s' short ran same)
    fun d s₁ _ _ _ ran => made (Nat.le_of_not_lt cut) (not_not.mp other) d s₁ ran

structure ExecSpec (file : List Byte) (oldpgdir : Word) (s : Mem) (r : Option Loaded) (s' : Mem) :
    Prop where
  rejects : ¬ Executable file → r = none
  failure : r = none → ∀ v, v ∉ s.freelist → s'.page v = s.page v
  kept : ∀ v, v ∉ s.freelist → (∀ role, s.held oldpgdir role ≠ some v) → s'.page v = s.page v

theorem ExecSpec.failed (same : ∀ v, v ∉ s.freelist → s₁.page v = s.page v) :
    ExecSpec file oldpgdir s none s₁ :=
  ⟨fun _ => rfl, fun _ => same, fun v busy _ => same v busy⟩

theorem Filling.freed (filling : Filling k s d sz s₁)
    (space : Space k s oldpgdir) (freed : Freed k oldpgdir s₁ s₂) :
    s₂.userFrame d = s₁.userFrame d ∧ s₂.userMemory d = s₁.userMemory d := by
  have fresh := filling.fresh
  have busy : ∀ r v, s₁.held d r = some v → v ∉ s₂.freelist := by
    intro r v holds
    rw [freed.free_iff, (fresh.old space).2]
    rintro (free | ⟨r', holds'⟩)
    · exact fresh.space.apart holds free
    · exact space.apart holds' (fresh.held r v holds)
  have same : ∀ v, s₁.Structural d v → s₂.page v = s₁.page v := by
    intro v structural
    obtain ⟨r, holds, -⟩ := Space.held_structural structural
    exact freed.kept v (busy r v holds)
  obtain ⟨-, -, entries⟩ := fresh.space.congr s₂ same freed.nodup freed.pool busy
  have frames : s₂.userFrame d = s₁.userFrame d := by
    funext a
    rw [Mem.userFrame, Mem.userFrame, Mem.frameOf, Mem.frameOf, Mem.entry, Mem.entry, entries]
  refine ⟨frames, ?_⟩
  funext a
  rw [Mem.userMemory, Mem.userMemory, frames]
  cases frame : s₁.userFrame d a with
  | none => rfl
  | some v =>
    obtain ⟨user, mapped⟩ := filling.user_only frame
    show Bytes.getByte (s₂.page v) _ = Bytes.getByte (s₁.page v) _
    rw [freed.kept v (busy _ v (Space.held_of_frameOf user mapped))]

attribute [local irreducible] makeStack

theorem wp_execFill {post : Option Loaded → Mem → Prop} (space : Space k s oldpgdir)
    (ready : Ready k s d (.start d s₁) s₁) (size : file.length < 2 ^ 32)
    (short : ∀ arg ∈ argv, arg.length + 1 < 2 ^ 32)
    (failed : ∀ s', (∀ v, v ∉ s.freelist → s'.page v = s.page v) →
      (verdict file d s₁).Fails argv → post none s')
    (panics : ∀ message, verdict file d s₁ = .panics message → fault (.panic message))
    (loose : verdict file d s₁ = .strays ∨ (verdict file d s₁).Denies →
      (∀ r s', post r s') ∧ ∀ stopped, fault stopped)
    (stuck : ∀ st, verdict file d s₁ = .loaded st → ¬ st.Full → ¬ Fits argv →
      ¬ (st.Pushes argv ∧ ∀ arg ∈ argv, arg.length < 2 ^ 31) → fault .nullDeref)
    (done : ∀ st places sp esp s', verdict file d s₁ = .loaded st → ¬ st.Full → Fits argv →
      (∀ v, v ∉ s.freelist → (∀ role, s.held oldpgdir role ≠ some v) → s'.page v = s.page v) →
      Stack s' d st.top → Built (s'.userMemory d) argv places st.top sp esp →
      post (some ⟨d, st.top, (elfOf file).entry, esp⟩) s') :
    Wp (execFill k oldpgdir d file argv) post fault s₁ := by
  -- on failure the directory is thrown away
  have thrown : (verdict file d s₁).Fails argv → ∀ s', Fresh k s d s' →
      Wp (do freevm k d; return none) post fault s' := by
    intro fails s' fresh
    rw [wp_bind]
    refine wp_freevm fresh.space fun s'' freed => failed s'' (fun v busy => ?_) fails
    rw [freed.kept v, fresh.kept v busy]
    rw [freed.free_iff]
    rintro (free | ⟨r, held⟩)
    · exact busy (fresh.pool free)
    · exact busy (fresh.held r v held)
  rw [execFill, wp_bind, fillImage, wp_bind]
  refine wp_loadSegments _ ready size (fun judged => thrown ?_) panics (fun judged => ?_)
    fun st s₂ judged loaded => ?_
  · rw [verdict, judged]
    trivial
  · obtain ⟨all, any⟩ := loose (judged.imp_right fun denied => by rw [verdict, denied]; trivial)
    refine ⟨fun r s' => wp_of_forall (fun r' s'' _ => ?_) fun stopped _ => any stopped, any⟩
    exact wp_of_forall (fun r s' _ => all r s') fun stopped _ => any stopped
  have judged' : verdict file d s₁ = .loaded st := judged
  rw [judged'] at thrown loose
  refine wp_makeStack_pages loaded.ready (fun s' fresh full => thrown (.inl full) s' fresh)
    (fun room untabled => ?_) fun s₃ room tabled below filling₃ stack₃ present₃ _ => ?_
  · obtain ⟨all, any⟩ := loose (.inr ⟨room, untabled⟩)
    exact ⟨fun r s' => wp_of_forall (fun r s' _ => all r s') fun stopped _ => any stopped, any⟩
  refine wp_pushStack_built filling₃ stack₃ short below (fun past unpushed => ?_)
    (fun s' fresh past pushes => ?_) fun places sp esp s₄ fits filling₄ stack₄ _ built => ?_
  · rw [present₃] at unpushed
    exact stuck st judged' room past unpushed
  · rw [present₃] at pushes
    exact thrown (.inr ⟨past, pushes⟩) s' fresh
  · -- the old address space is freed
    obtain ⟨old, held⟩ := filling₄.fresh.old space
    simp only [Option.map_some, wp_bind]
    rw [wp_switchuvm filling₄.fresh.space]
    refine wp_freevm old fun s₅ freed => ?_
    obtain ⟨frames, memory⟩ := filling₄.freed space freed
    rw [← memory] at built
    refine done st places sp esp s₅ judged' room fits (fun v busy loose => ?_)
      ⟨stack₄.page, stack₄.room, ?_, ?_⟩ built
    · rw [freed.kept v, filling₄.fresh.kept v busy]
      rw [freed.free_iff, held]
      rintro (free | ⟨r, holds⟩)
      · exact busy (filling₄.fresh.pool free)
      · exact loose r holds
    · rw [frames]
      exact stack₄.accessible
    · rw [frames]
      exact stack₄.guard

/-- While the program headers from an offset on are loaded, `loaduvm` is called for a header, with
the size that `allocuvm` gave and in the state that it left. -/
inductive Calls (k : Image) (d : Word) (file : List Byte) :
    Nat → Word → Word → Mem → Proghdr → Word → Mem → Prop
  | here {count : Nat} {off sz sz' : Word} {s s' : Mem} {ph : Proghdr}
      (full : (readi file off proghdrSize).1 = proghdrSize.toNat)
      (first : Proghdr.ofBytes (readi file off proghdrSize).2 = ph) (load : ph.type = elfProgLoad)
      (shorter : ¬ ph.memsz < ph.filesz)
      (grown : allocuvm k d sz (ph.vaddr + ph.memsz) s = .ok (sz', s')) (nonzero : sz' ≠ 0) :
      Calls k d file (count + 1) off sz s ph sz' s'
  | skip {count : Nat} {off sz sz' : Word} {s s' : Mem} {ph : Proghdr}
      (full : (readi file off proghdrSize).1 = proghdrSize.toNat)
      (other : (Proghdr.ofBytes (readi file off proghdrSize).2).type ≠ elfProgLoad)
      (later : Calls k d file count (off + proghdrSize) sz s ph sz' s') :
      Calls k d file (count + 1) off sz s ph sz' s'
  | later {count : Nat} {off sz sz₁ sz' : Word} {s s₁ s₂ s' : Mem} {ph ph' : Proghdr} {r : Int}
      (full : (readi file off proghdrSize).1 = proghdrSize.toNat)
      (first : Proghdr.ofBytes (readi file off proghdrSize).2 = ph') (load : ph'.type = elfProgLoad)
      (shorter : ¬ ph'.memsz < ph'.filesz)
      (grown : allocuvm k d sz (ph'.vaddr + ph'.memsz) s = .ok (sz₁, s₁)) (nonzero : sz₁ ≠ 0)
      (loaded : loaduvm d ph'.vaddr file ph'.off ph'.filesz s₁ = .ok (r, s₂)) (whole : ¬ r < 0)
      (later : Calls k d file count (off + proghdrSize) sz₁ s₂ ph sz' s') :
      Calls k d file (count + 1) off sz s ph sz' s'

theorem Proghdr.judge_cases (file : List Byte) (st : Stage) (load : ph.type = elfProgLoad) :
    ph.judge file st = .rejected ∨ ph.judge file st = .denied ∨
      (¬ ph.memsz < ph.filesz ∧ ph.vaddr + ph.memsz < kernbase ∧
        ¬ Refused (st.asks (ph.vaddr + ph.memsz)) ∧ AllTables (st.asks (ph.vaddr + ph.memsz)) ∧
        (ph.behind st).sz ≠ 0 ∧
        ph.judge file st =
          if ¬ Aligned ph.vaddr then .panics "loaduvm: addr must be page aligned"
          else ph.place file (ph.behind st)) := by
  rw [judge, if_neg (not_not.mpr load)]
  split
  · exact .inl rfl
  rename_i checked
  obtain ⟨shorter, below, served⟩ := by simpa only [not_or] using checked
  split
  · exact .inr (.inl rfl)
  rename_i tables
  split
  · exact .inl rfl
  rename_i nonzero
  exact .inr (.inr ⟨shorter, BitVec.not_le.mp below, served, not_not.mp tables, nonzero, rfl⟩)

theorem Ready.grown {sz' : Word} (ready : Ready k s d st s₁) (load : ph.type = elfProgLoad)
    (shorter : ¬ ph.memsz < ph.filesz)
    (grown : allocuvm k d st.sz (ph.vaddr + ph.memsz) s₁ = .ok (sz', s₂)) (nonzero : sz' ≠ 0)
    (tabled : ph.judge file st ≠ .denied) :
    sz' = (ph.behind st).sz ∧ Ready k s d (ph.behind st) s₂ ∧
      ph.judge file st = if ¬ Aligned ph.vaddr then .panics "loaduvm: addr must be page aligned"
        else ph.place file (ph.behind st) := by
  have known : Wp (allocuvm k d st.sz (ph.vaddr + ph.memsz)) (fun r s' => r ≠ 0 →
      r = (ph.behind st).sz ∧ Ready k s d (ph.behind st) s' ∧ ph.judge file st =
        if ¬ Aligned ph.vaddr then .panics "loaduvm: addr must be page aligned"
        else ph.place file (ph.behind st)) (fun _ => False) s₁ := by
    refine wp_fillMore ready (fun s' _ _ nonzero => absurd rfl nonzero)
      (fun below served untabled => ?_) fun below served tables s' ready' _ _ nonzero => ?_
    · refine absurd ?_ tabled
      rw [Proghdr.judge, if_neg (not_not.mpr load), if_neg, if_pos untabled]
      rintro (longer | high | refused)
      · exact shorter longer
      · exact BitVec.not_le.mpr below high
      · exact served refused
    · have judged := ph.judge_had file load shorter below served tables
      rw [if_neg (show (ph.behind st).sz ≠ 0 from nonzero)] at judged
      exact ⟨rfl, ⟨ready'.filling, ready'.all, ready'.small, ready'.present, ready'.grants⟩, judged⟩
  exact known.ok grown nonzero

def Verdict.Sound : Verdict → Prop
  | .rejected => True
  | .loaded _ => True
  | _ => False

namespace Proghdr

theorem place_strays (judged : ph.place file st = .strays) :
    ph.room st < ph.filesz.toNat ∧ ph.off.toNat + ph.room st < file.length := by
  have room : ph.room st ≤ ph.filesz.toNat := Nat.min_le_left ..
  rw [place] at judged
  split at judged
  · cases judged
  split at judged
  · cases judged
  split at judged
  · cases judged
  split at judged
  · omega
  · cases judged

theorem place_loaded {st' : Stage} (judged : ph.place file st = .loaded st') : st' = st := by
  rw [place] at judged
  split at judged
  · cases judged
  split at judged
  · cases judged
    rfl
  split at judged
  · cases judged
  split at judged <;> cases judged

end Proghdr

theorem Ready.placed {n : Nat} (ready : Ready k s d st s₁) (sound : (ph.place file st).Sound)
    (inside : n < ph.filesz.toNat) (inFile : ph.off.toNat + n < file.length) :
    (ph.vaddr + BitVec.ofNat 32 n).toNat < firstPage st.sz ∧
      ∃ v ∈ s.freelist, s₁.userFrame d (ph.vaddr + BitVec.ofNat 32 n) = some v := by
  have limit : st.sz.toNat < 2 ^ 31 := BitVec.lt_def.mp ready.small
  have room : ph.room st = min ph.filesz.toNat (firstPage st.sz - ph.vaddr.toNat) := rfl
  have within : n < ph.room st := by
    refine Nat.lt_of_not_le fun beyond => ?_
    rw [Proghdr.place, if_neg (by omega), if_neg (by omega)] at sound
    split at sound
    · exact sound
    · rw [if_pos (by omega)] at sound
      exact sound
  have below : (ph.vaddr + BitVec.ofNat 32 n).toNat < firstPage st.sz := by
    rw [BitVec.toNat_add, BitVec.toNat_ofNat]
    rw [firstPage] at room ⊢
    omega
  exact ⟨below, ready.userFrame below⟩

theorem Ready.loaded {r : Int} (ready : Ready k s d st s₁) (aligned : Aligned ph.vaddr)
    (size : file.length < 2 ^ 32) (sound : (ph.place file st).Sound)
    (ran : loaduvm d ph.vaddr file ph.off ph.filesz s₁ = .ok (r, s₂)) (whole : ¬ r < 0) :
    ph.place file st = .loaded st ∧ Ready k s d st s₂ := by
  have known : Wp (loaduvm d ph.vaddr file ph.off ph.filesz) (fun r s' => ¬ r < 0 →
      ph.place file st = .loaded st ∧ Ready k s d st s') (fun _ => True) s₁ := by
    refine wp_loaduvm ready aligned size (fun _ s' _ whole => absurd (by decide) whole)
      (fun _ _ => trivial) (fun judged => ?_) fun judged s' ready' _ _ => ⟨judged, ready'⟩
    rw [judged] at sound
    exact sound.elim
  exact known.ok ran whole

theorem Calls.stores {count n : Nat} {off : Word}
    (calls : Calls k d file count off st.sz s₁ ph sz s₂) (ready : Ready k s d st s₁)
    (size : file.length < 2 ^ 32)
    (sound : (judge file count off st).Sound) (inside : n < ph.filesz.toNat)
    (inFile : ph.off.toNat + n < file.length) :
    (ph.vaddr + BitVec.ofNat 32 n).toNat < firstPage sz ∧
      ∃ v ∈ s.freelist, s₂.userFrame d (ph.vaddr + BitVec.ofNat 32 n) = some v := by
  -- what is known where `allocuvm` returned for the first header
  have step : ∀ {st : Stage} {s₁ s₂ : Mem} {ph : Proghdr} {sz : Word},
      Ready k s d st s₁ → ph.type = elfProgLoad → ¬ ph.memsz < ph.filesz →
      allocuvm k d st.sz (ph.vaddr + ph.memsz) s₁ = .ok (sz, s₂) → sz ≠ 0 →
      (ph.judge file st).Sound → sz = (ph.behind st).sz ∧ Ready k s d (ph.behind st) s₂ ∧
        Aligned ph.vaddr ∧ ph.judge file st = ph.place file (ph.behind st) := by
    intro st s₁ s₂ ph sz ready load shorter grown nonzero sound
    have tabled : ph.judge file st ≠ .denied := by
      intro denied
      rw [denied] at sound
      exact sound
    obtain ⟨same, ready', judged⟩ := ready.grown load shorter grown nonzero tabled
    by_cases crooked : ¬ Aligned ph.vaddr
    · rw [judged, if_pos crooked] at sound
      exact sound.elim
    · rw [if_neg crooked] at judged
      exact ⟨same, ready', not_not.mp crooked, judged⟩
  -- the verdict on all headers is sound only if that on the first is
  have head : ∀ {count off st ph}, (readi file off proghdrSize).1 = proghdrSize.toNat →
      Proghdr.ofBytes (readi file off proghdrSize).2 = ph →
      (judge file (count + 1) off st).Sound → (ph.judge file st).Sound := by
    intro count off st ph full first sound
    rw [judge_succ full, first] at sound
    revert sound
    cases ph.judge file st with
    | loaded => exact fun _ => trivial
    | _ => exact id
  generalize start : st.sz = sz₀ at calls
  induction calls generalizing st with
  | here full first load shorter grown nonzero =>
    subst start
    have sound' := head full first sound
    obtain ⟨rfl, ready', -, judged⟩ := step ready load shorter grown nonzero sound'
    rw [judged] at sound'
    exact ready'.placed sound' inside inFile
  | skip full other later ih =>
    have skipped : (Proghdr.ofBytes (readi file _ proghdrSize).2).judge file st = .loaded st :=
      if_pos other
    rw [judge_succ full, skipped] at sound
    exact ih ready sound inside inFile start
  | later full first load shorter grown nonzero loaded whole later ih =>
    subst start
    have sound' := head full first sound
    obtain ⟨rfl, ready', aligned, judged⟩ := step ready load shorter grown nonzero sound'
    rw [judged] at sound'
    obtain ⟨placed, ready''⟩ := ready'.loaded aligned size sound' loaded whole
    rw [judge_succ full, first, judged, placed] at sound
    exact ih ready'' sound inside inFile rfl

theorem judge_strays (count : Nat) {off : Word} (ready : Ready k s d st s₁)
    (size : file.length < 2 ^ 32) (judged : judge file count off st = .strays) :
    ∃ ph sz s₂ n, Calls k d file count off st.sz s₁ ph sz s₂ ∧ n < ph.filesz.toNat ∧
      ph.off.toNat + n < file.length ∧ s₂.userFrame d (ph.vaddr + BitVec.ofNat 32 n) = none := by
  induction count generalizing st off s₁ with
  | zero => cases judged
  | succ count ih =>
    by_cases full : (readi file off proghdrSize).1 = proghdrSize.toNat
    · rw [judge_succ full] at judged
      generalize first : Proghdr.ofBytes (readi file off proghdrSize).2 = ph at judged
      by_cases load : ph.type = elfProgLoad
      · rcases ph.judge_cases file st load with
          rejected | denied | ⟨shorter, below, served, tables, nonzero, here⟩
        · rw [rejected] at judged
          cases judged
        · rw [denied] at judged
          cases judged
        have grows : Wp (allocuvm k d st.sz (ph.vaddr + ph.memsz))
            (fun r s' => r = (ph.behind st).sz ∧ Ready k s d (ph.behind st) s')
            (fun _ => False) s₁ := by
          refine wp_fillMore ready (fun s' _ fails => ?_)
            (fun _ _ untabled => absurd tables untabled) fun _ _ _ s' ready' _ _ => ⟨rfl, ?_⟩
          · rcases fails with high | refused
            · exact absurd high (BitVec.not_le.mpr below)
            · exact absurd refused served
          · exact ⟨ready'.filling, ready'.all, ready'.small, ready'.present, ready'.grants⟩
        obtain ⟨_, s₂, grown, rfl, ready₂⟩ := grows.returns
        rw [here] at judged
        by_cases crooked : ¬ Aligned ph.vaddr
        · rw [if_pos crooked] at judged
          cases judged
        rw [if_neg crooked] at judged
        cases placed : ph.place file (ph.behind st) with
        | strays =>
          obtain ⟨less, inFile⟩ := Proghdr.place_strays placed
          refine ⟨ph, _, s₂, ph.room (ph.behind st), .here full first load shorter grown nonzero,
            less, inFile, ready₂.filling.userFrame_none ?_⟩
          have room : ph.room (ph.behind st) =
              min ph.filesz.toNat (firstPage (ph.behind st).sz - ph.vaddr.toNat) := rfl
          have limit : (ph.behind st).sz.toNat < 2 ^ 31 := BitVec.lt_def.mp ready₂.small
          have bound := ph.vaddr.isLt
          rw [BitVec.toNat_add, BitVec.toNat_ofNat]
          rw [firstPage] at room ⊢
          omega
        | loaded st' =>
          obtain rfl := Proghdr.place_loaded placed
          have loads : Wp (loaduvm d ph.vaddr file ph.off ph.filesz)
              (fun r s' => ¬ r < 0 ∧ Ready k s d (ph.behind st) s') (fun _ => False) s₂ := by
            refine wp_loaduvm ready₂ (not_not.mp crooked) size (fun judged' => ?_)
              (fun _ judged' => ?_) (fun judged' => ?_) fun _ s' ready' _ => ⟨by decide, ready'⟩ <;>
            · rw [placed] at judged'
              cases judged'
          obtain ⟨r, s₃, loaded, whole, ready₃⟩ := loads.returns
          rw [placed] at judged
          obtain ⟨ph', sz, s₄, n, calls, astray⟩ := ih ready₃ judged
          exact ⟨ph', sz, s₄, n,
            .later full first load shorter grown nonzero loaded whole calls, astray⟩
        | _ =>
          rw [placed] at judged
          cases judged
      · have skipped : ph.judge file st = .loaded st := if_pos load
        rw [skipped] at judged
        obtain ⟨ph', sz, s₂, n, calls, astray⟩ := ih ready judged
        exact ⟨ph', sz, s₂, n, .skip full (first ▸ load) calls, astray⟩
    · rw [judge, if_neg full] at judged
      cases judged

structure Opens (k : Image) (file : List Byte) (s : Mem) (d : Word) (s₁ : Mem) : Prop where
  header : elfhdrSize.toNat ≤ file.length
  magic : (elfOf file).magic = elfMagic
  made : setupkvm k s = .ok (some d, s₁)

structure ExecSafe (k : Image) (oldpgdir : Word) (file : List Byte) (argv : List (List Byte))
    (s : Mem) : Prop where
  returns : ∃ r s', exec k oldpgdir (some file) argv s = .ok (r, s') ∧ ExecSpec file oldpgdir s r s'
  stores : ∀ d s₁, Opens k file s d s₁ → ∀ ph sz s₂,
    Calls k d file (elfOf file).phnum (elfOf file).phoff 0 s₁ ph sz s₂ →
    ∀ n < ph.filesz.toNat, ph.off.toNat + n < file.length →
      (ph.vaddr + BitVec.ofNat 32 n).toNat < firstPage sz ∧
        ∃ v ∈ s.freelist, s₂.userFrame d (ph.vaddr + BitVec.ofNat 32 n) = some v
  image : ∀ d s₁ sz s₂, Opens k file s d s₁ →
    loadSegments k d file (elfOf file).phnum (elfOf file).phoff 0 s₁ = .ok (some sz, s₂) →
    Filling k s d sz s₂ ∧ sz < kernbase ∧
      s₂.userMemory d = (segmentsOf file).foldl (Proghdr.load file) fun _ => 0

theorem Verdict.Accepts.sound {verdict : Verdict} (accepts : verdict.Accepts argv) :
    verdict.Sound ∧ ¬ verdict.Denies := by
  cases verdict with
  | rejected => exact ⟨trivial, id⟩
  | loaded st =>
    refine ⟨trivial, fun denies => ?_⟩
    rcases accepts with full | ⟨tabled, -⟩
    · exact denies.1 full
    · exact denies.2 tabled
  | _ => exact accepts.elim

theorem Opens.wp_exec {post : Option Loaded → Mem → Prop} (opens : Opens k file s d s₁)
    (nodup : s.freelist.Nodup) (managed : ∀ v ∈ s.freelist, Managed k v)
    (fills : Wp (execFill k oldpgdir d file argv) post fault s₁) :
    Wp (exec k oldpgdir (some file) argv) post fault s := by
  refine wp_exec_start nodup managed (fun other => ?_) (fun s' _ ran _ => ?_)
    fun _ _ d' s₁' made => ?_
  · exact absurd ⟨opens.header, opens.magic⟩ other
  · rw [opens.made] at ran
    cases ran
  · rw [opens.made] at made
    cases made
    exact fills

section

variable (space : Space k s oldpgdir) (size : file.length < 2 ^ 32)
  (short : ∀ arg ∈ argv, arg.length < 2 ^ 31)
include space size short

theorem ExecSafe.of_accepts
    (accepts : ∀ d s₁, Opens k file s d s₁ → (verdict file d s₁).Accepts argv) :
    ExecSafe k oldpgdir file argv s := by
  refine ⟨?_, fun d s₁ opens ph sz s₂ calls n inside inFile => ?_,
    fun d s₁ sz s₂ opens loaded => ?_⟩
  · apply Wp.returns
    refine wp_exec_start space.nodup space.pool (fun _ => .failed fun _ _ => rfl)
      (fun s' _ _ same => .failed same) fun header magic d s₁ made => ?_
    obtain ⟨⟨ready, -⟩, -⟩ := setupkvm_ready space.nodup space.pool made
    have accepted := accepts d s₁ ⟨header, magic, made⟩
    obtain ⟨sound, tabled⟩ := accepted.sound
    refine wp_execFill space ready size (fun arg member => ?_) (fun s' same _ => .failed same)
      (fun message judged => ?_) (fun loose => ?_) (fun st judged room past unpushed => ?_)
      fun st places sp esp s' judged room fits kept _ _ => ⟨fun bad => ?_, by rintro ⟨⟩, kept⟩
    · have bound := short arg member
      omega
    · rw [judged] at sound
      exact sound
    · rcases loose with strays | denies
      · rw [strays] at sound
        exact sound.elim
      · exact absurd denies tabled
    · rw [judged] at accepted
      exact unpushed ⟨(accepted.resolve_left room).2.2 past, short⟩
    · rw [judged] at accepted
      have flat := (accepted.resolve_left room).2.1 fits
      obtain ⟨table, wellFormed⟩ := judge_loaded _ judged
      exact absurd ⟨header, magic, table, (wellFormed.mp flat).2⟩ bad
  · obtain ⟨⟨ready, -⟩, -⟩ := setupkvm_ready space.nodup space.pool opens.made
    have calls' : Calls k d file _ _ (Stage.start d s₁).sz s₁ ph sz s₂ := calls
    exact calls'.stores ready size (accepts d s₁ opens).sound.1 inside inFile
  · obtain ⟨⟨ready, zero⟩, -⟩ := setupkvm_ready space.nodup space.pool opens.made
    obtain ⟨sound, tabled⟩ := (accepts d s₁ opens).sound
    have known : Wp (loadSegments k d file (elfOf file).phnum (elfOf file).phoff 0)
        (fun r s' => ∀ sz, r = some sz → Filling k s d sz s' ∧ sz < kernbase ∧
          s'.userMemory d = (segmentsOf file).foldl (Proghdr.load file) fun _ => 0)
        (fun _ => True) s₁ := by
      refine wp_loadSegments _ ready size (fun _ _ _ => (by rintro _ ⟨⟩))
        (fun _ _ => trivial) (fun loose => ?_) fun st s' _ loaded sz same => ?_
      · rcases loose with judged | judged <;>
        · rw [verdict, judged] at sound
          exact sound.elim
      · cases same
        exact ⟨loaded.ready.filling, loaded.ready.small, by rw [loaded.image, zero]; rfl⟩
    exact known.ok loaded sz rfl

theorem ExecSafe.accepts (safe : ExecSafe k oldpgdir file argv s) (opens : Opens k file s d s₁)
    (tabled : ¬ (verdict file d s₁).Denies) : (verdict file d s₁).Accepts argv := by
  obtain ⟨⟨ready, -⟩, -⟩ := setupkvm_ready space.nodup space.pool opens.made
  obtain ⟨r, s', ran, spec⟩ := safe.returns
  have short' : ∀ arg ∈ argv, arg.length + 1 < 2 ^ 32 := by
    intro arg member
    have bound := short arg member
    omega
  -- what the verdict excludes does not come about
  have excluded : ∀ post : Option Loaded → Mem → Prop,
      Wp (execFill k oldpgdir d file argv) post (fun _ => True) s₁ → post r s' := fun _ fills =>
    (opens.wp_exec space.nodup space.pool fills).ok ran
  cases judged : verdict file d s₁ with
  | rejected => trivial
  | panics message =>
    refine excluded (fun _ _ => False) (wp_execFill space ready size short'
      (fun _ _ fails => ?_) (fun _ _ => trivial) (fun loose => ?_) (fun _ _ _ _ _ => trivial)
      fun st _ _ _ _ judged' => ?_)
    · rw [judged] at fails
      exact fails
    · rw [judged] at loose
      rcases loose with strays | denies
      · cases strays
      · exact denies.elim
    · rw [judged] at judged'
      cases judged'
  | strays =>
    obtain ⟨ph, sz, s₂, n, calls, inside, inFile, astray⟩ := judge_strays _ ready size judged
    obtain ⟨-, v, -, frame⟩ := safe.stores d s₁ opens ph sz s₂ calls n inside inFile
    rw [astray] at frame
    cases frame
  | denied =>
    rw [judged] at tabled
    exact absurd trivial tabled
  | loaded st =>
    rw [judged] at tabled
    refine or_iff_not_imp_left.mpr fun room => ⟨?_, fun fits => ?_, fun past => ?_⟩
    · exact not_not.mp fun untabled => tabled ⟨room, untabled⟩
    · -- a file that is loaded is an executable
      have loaded : r ≠ none := by
        refine excluded (fun r _ => r ≠ none) (wp_execFill space ready size short'
          (fun _ _ fails => ?_) (fun _ _ => trivial) (fun loose => ?_) (fun _ _ _ _ _ => trivial)
          fun _ _ _ _ _ _ _ _ _ _ _ => Option.some_ne_none _)
        · rw [judged] at fails
          rcases fails with full | ⟨past, -⟩
          · exact absurd full room
          · exact absurd fits past
        · rw [judged] at loose
          rcases loose with strays | denies
          · cases strays
          · exact absurd denies tabled
      have executable : Executable file := not_not.mp fun bad => loaded (spec.rejects bad)
      exact (judge_loaded _ judged).2.mpr ⟨rfl, executable.wellFormed⟩
    · -- otherwise a null pointer is followed
      by_contra unpushed
      refine excluded (fun _ _ => False) (wp_execFill space ready size short'
        (fun _ _ fails => ?_) (fun _ _ => trivial) (fun loose => ?_) (fun _ _ _ _ _ => trivial)
        fun _ _ _ _ _ _ _ fits => absurd fits past)
      · rw [judged] at fails
        rcases fails with full | ⟨-, pushed⟩
        · exact room full
        · exact unpushed pushed
      · rw [judged] at loose
        rcases loose with strays | denies
        · cases strays
        · exact absurd denies tabled

end

/-- `exec` is safe exactly for the files that are accepted: it rejects the program headers before
one of them panics, stores astray or finds a page table denied, or it loads them without a segment
that wraps and passes or refuses the arguments at addresses with page tables. The one thing that is
left open is what it does behind a page table that is denied. -/
theorem exec_safe_iff {oldpgdir : Word} (space : Space k s oldpgdir) (file : List Byte)
    (argv : List (List Byte)) (size : file.length < 2 ^ 31)
    (short : ∀ arg ∈ argv, arg.length < 2 ^ 31) :
    ((∀ d s₁, Opens k file s d s₁ → (verdict file d s₁).Accepts argv) →
      ExecSafe k oldpgdir file argv s) ∧
    ((∀ d s₁, Opens k file s d s₁ → ¬ (verdict file d s₁).Denies) →
      (ExecSafe k oldpgdir file argv s ↔
        ∀ d s₁, Opens k file s d s₁ → (verdict file d s₁).Accepts argv)) := by
  have size' : file.length < 2 ^ 32 := by omega
  have safe : _ → ExecSafe k oldpgdir file argv s := ExecSafe.of_accepts space size' short
  exact ⟨safe, fun tabled => ⟨fun safe d s₁ opens =>
    safe.accepts space size' short opens (tabled d s₁ opens), safe⟩⟩

def oneSegment (vaddr filesz memsz : Word) : List Byte :=
  [elfMagic, 0, 0, 0, 0, 0, 0, 52, 0, 0, 0, 1, 0].flatMap toBytes ++
    [elfProgLoad, 84, vaddr, 0, filesz, memsz, 5, 0x1000].flatMap toBytes ++
    [0x90, 0x90, 0x90, 0x90]

/-- `exec` of a file with a segment for the first page, in a process of one page. -/
theorem exec_safe_iff_page :
    ExecSafe smallImage 0x80200000 (oneSegment 0 4 0x1000) [[0x61]] onePage := by
  have length : onePage.freelist.length = 2000 := freePages_length
  have elf : elfOf (oneSegment 0 4 0x1000) = ⟨elfMagic, 0, 52, 1⟩ := by decide +kernel
  have header : Proghdr.ofBytes (readi (oneSegment 0 4 0x1000) 52 proghdrSize).2 =
      ⟨elfProgLoad, 84, 0, 4, 0x1000⟩ := by
    decide +kernel
  refine (exec_safe_iff onePage_space _ _ (by decide) (by decide)).1 fun d s₁ opens => ?_
  obtain ⟨-, stock⟩ := setupkvm_ready onePage_space.nodup onePage_space.pool opens.made
  have few : pagesUpTo (pgRoundUp (0 : Word)) 0x1000 ≤ 1 := by decide
  obtain ⟨served, tables, plenty⟩ :=
    (stock (4 + 2 * 1) rfl (by rw [length]; decide)).grow 0x1000 few
  obtain ⟨st, judged, size, flat, plenty⟩ : ∃ st,
      verdict (oneSegment 0 4 0x1000) d s₁ = .loaded st ∧ st.sz = 0x1000 ∧ st.wraps = false ∧
        st.Plenty 4 := by
    refine ⟨Proghdr.behind ⟨elfProgLoad, 84, 0, 4, 0x1000⟩ (.start d s₁), ?_, rfl, rfl, plenty⟩
    rw [verdict, elf]
    show judge _ 1 52 _ = _
    rw [judge_succ (by decide +kernel), header,
      Proghdr.judge_had _ rfl (by decide) (by decide) served tables]
    have size : (Proghdr.behind ⟨elfProgLoad, 84, 0, 4, 0x1000⟩ (.start d s₁)).sz = 0x1000 := rfl
    generalize Proghdr.behind _ _ = st at *
    have room : Proghdr.room ⟨elfProgLoad, 84, 0, 4, 0x1000⟩ st = 4 := by
      rw [Proghdr.room, size]
      decide
    rw [size, if_neg (by decide), if_neg (by decide), Proghdr.place, room, if_neg (by decide),
      if_pos (by decide)]
    rfl
  rw [judged]
  have tabled := plenty.stack (by rw [size]; decide)
  exact .inr ⟨tabled.2, fun _ => flat, fun past => absurd ⟨by decide, by decide⟩ past⟩

/-- A segment that does not start at a page: `exec` panics. -/
theorem exec_panics : exec smallImage 0x80200000 (some (oneSegment 1 0 0)) [] onePage =
    .error (.panic "loaduvm: addr must be page aligned") := by
  have length : onePage.freelist.length = 2000 := freePages_length
  have elf : elfOf (oneSegment 1 0 0) = ⟨elfMagic, 0, 52, 1⟩ := by decide +kernel
  have header : Proghdr.ofBytes (readi (oneSegment 1 0 0) 52 proghdrSize).2 =
      ⟨elfProgLoad, 84, 1, 0, 0⟩ := by
    decide +kernel
  have checked : Wp (exec smallImage 0x80200000 (some (oneSegment 1 0 0)) []) (fun _ _ => False)
      (· = .panic "loaduvm: addr must be page aligned") onePage := by
    refine wp_exec_start onePage_space.nodup onePage_space.pool (fun other => ?_)
      (fun s' short _ _ => ?_) fun _ _ d s₁ made => ?_
    · exact absurd ⟨by decide, by rw [elf]⟩ other
    · exact absurd ⟨rfl, by rw [length]; decide⟩ short
    obtain ⟨⟨ready, -⟩, stock⟩ := setupkvm_ready onePage_space.nodup onePage_space.pool made
    have few : pagesUpTo (pgRoundUp (0 : Word)) 1 ≤ 1 := by decide
    obtain ⟨served, tables, -⟩ := (stock (0 + 2 * 1) rfl (by rw [length]; decide)).grow 1 few
    have judged : verdict (oneSegment 1 0 0) d s₁ =
        .panics "loaduvm: addr must be page aligned" := by
      rw [verdict, elf]
      show judge _ 1 52 _ = _
      rw [judge_succ (by decide +kernel), header,
        Proghdr.judge_had _ rfl (by decide) (by decide) served tables]
      rfl
    refine wp_execFill onePage_space ready (by decide) (by decide) (fun _ _ fails => ?_)
      (fun _ panics => ?_) (fun loose => ?_) (fun _ loaded => ?_) fun _ _ _ _ _ loaded => ?_
    · rw [judged] at fails
      exact fails
    · rw [judged] at panics
      cases panics
      rfl
    · rw [judged] at loose
      rcases loose with strays | denies
      · cases strays
      · exact denies.elim
    · rw [judged] at loaded
      cases loaded
    · rw [judged] at loaded
      cases loaded
  cases ran : exec smallImage 0x80200000 (some (oneSegment 1 0 0)) [] onePage with
  | ok outcome => exact (checked.ok ran).elim
  | error stopped => rw [checked.error ran]

end Vm

end Xv6
