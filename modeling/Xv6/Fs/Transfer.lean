import Xv6.Fs.Contents

/-!
# Reading and writing files

`readi` and `writei` on a file without holes, in terms of its bytes: reading returns a part of them
and changes nothing, writing replaces a part of them, possibly beyond their end, and leaves the
other files alone. Blocks are taken for what is not there yet; when none is free, `balloc` panics.
-/

namespace Xv6

open List (length_range range length_take length_drop length_append)
open BitVec (toNat_add lt_def ofNat le_def)
open Bytes (Byte getByte putBytes)
open Assignment (Exact)
open Program

namespace Volume

variable {v v' : Volume} {i : Word} {bn off n : Nat}

instance (off n bn : Nat) : Decidable (Span off n bn) := inferInstanceAs (Decidable (_ ∧ _ ∧ _))

def missing (v : Volume) (i : Word) (off n : Nat) : Nat :=
  ((Finset.range maxfile).filter fun bn => Span off n bn ∧ v.addr i (dataSlot bn) = 0).card

theorem Span.lt_maxfile (span : Span off n bn) (inside : off + n ≤ maxfile * bsize) :
    bn < maxfile := by
  obtain ⟨-, -, high⟩ := span
  exact Nat.lt_of_mul_lt_mul_right (Nat.lt_of_lt_of_le high inside)

theorem span_first (off : Nat) (some : 0 < n) : Span off n (off / bsize) := by
  refine ⟨some, Nat.le_refl _, ?_⟩
  have le := Nat.div_mul_le_self off bsize
  omega

theorem missing_pos (span : Span off n bn) (inside : off + n ≤ maxfile * bsize)
    (empty : v.addr i (dataSlot bn) = 0) : 0 < v.missing i off n := by
  refine Finset.card_pos.mpr ⟨bn, Finset.mem_filter.mpr ⟨?_, span, empty⟩⟩
  exact Finset.mem_range.mpr (span.lt_maxfile inside)

theorem HoleFree.missing (whole : v.HoleFree i) (inside : off + n ≤ (v.dinode i).size.toNat) :
    v.missing i off n = 0 := by
  rw [Volume.missing, Finset.card_eq_zero, Finset.filter_eq_empty_iff]
  rintro bn - ⟨span, empty⟩
  exact whole.mapped bn (Nat.lt_of_lt_of_le span.2.2 inside) empty

theorem missing_rest (v' : Volume) {m : Nat}
    (sub : ∀ bn, Span (off + m) n bn → Span off (m + n) bn)
    (same : ∀ bn, bn < maxfile → Span (off + m) n bn → v'.addr i (dataSlot bn) = 0 →
      v.addr i (dataSlot bn) = 0) : v'.missing i (off + m) n ≤ v.missing i off (m + n) := by
  refine Finset.card_le_card fun bn member => ?_
  obtain ⟨low, span, empty⟩ := Finset.mem_filter.mp member
  exact Finset.mem_filter.mpr ⟨low, sub bn span, same bn (Finset.mem_range.mp low) span empty⟩

theorem missing_filled (v' : Volume) {m : Nat}
    (sub : ∀ bn, Span (off + m) n bn → Span off (m + n) bn)
    (first : Span off (m + n) bn) (low : bn < maxfile) (empty : v.addr i (dataSlot bn) = 0)
    (here : v'.addr i (dataSlot bn) ≠ 0)
    (same : ∀ bn', bn' < maxfile → bn' ≠ bn → v'.addr i (dataSlot bn') =
      v.addr i (dataSlot bn')) : v'.missing i (off + m) n + 1 ≤ v.missing i off (m + n) := by
  have member : bn ∈ (Finset.range maxfile).filter fun bn =>
      Span off (m + n) bn ∧ v.addr i (dataSlot bn) = 0 :=
    Finset.mem_filter.mpr ⟨Finset.mem_range.mpr low, first, empty⟩
  show _ ≤ Finset.card _
  rw [← Finset.card_erase_add_one member]
  refine Nat.succ_le_succ (Finset.card_le_card fun bn' member' => ?_)
  obtain ⟨low', span, empty'⟩ := Finset.mem_filter.mp member'
  have differ : bn' ≠ bn := by
    rintro rfl
    exact here empty'
  rw [same bn' (Finset.mem_range.mp low') differ] at empty'
  exact Finset.mem_erase.mpr ⟨differ, Finset.mem_filter.mpr ⟨low', sub bn' span, empty'⟩⟩

theorem length_content (v : Volume) (i : Word) :
    (v.content i).length = (v.dinode i).size.toNat := by
  rw [content, List.length_map, length_range]

theorem getElem?_content (v : Volume) (i : Word) (o : Nat) :
    (v.content i)[o]? = if o < (v.dinode i).size.toNat then some (v.byte i o) else none := by
  rw [content, List.getElem?_map]
  split
  · rename_i inside
    rw [List.getElem?_range inside, Option.map_some]
  · rename_i outside
    rw [List.getElem?_eq_none (by rw [length_range]; omega), Option.map_none]

theorem content_slice (v : Volume) (i : Word) (off n : Nat) :
    ((v.content i).drop off).take n =
      (range (min n ((v.dinode i).size.toNat - off))).map fun k => v.byte i (off + k) := by
  apply List.ext_getElem?
  intro k
  rw [List.getElem?_map]
  by_cases inside : k < min n ((v.dinode i).size.toNat - off)
  · rw [List.getElem?_take_of_lt (by omega), List.getElem?_drop, getElem?_content,
      if_pos (by omega), List.getElem?_range inside]
    rfl
  · have range : (range (min n ((v.dinode i).size.toNat - off)))[k]? = none :=
      List.getElem?_eq_none (by rw [length_range]; omega)
    rw [range, Option.map_none, List.getElem?_eq_none]
    rw [length_take, length_drop, length_content]
    omega

def splice (old : List Byte) (off : Nat) (bytes : List Byte) : List Byte :=
  old.take off ++ bytes ++ old.drop (off + bytes.length)

variable {old bytes : List Byte}

theorem getElem?_splice (start : off ≤ old.length) (o : Nat) :
    (splice old off bytes)[o]? =
      if off ≤ o ∧ o < off + bytes.length then bytes[o - off]? else old[o]? := by
  have front : (old.take off).length = off := by rw [length_take, Nat.min_eq_left start]
  have both : (old.take off ++ bytes).length = off + bytes.length := by
    rw [length_append, front]
  rw [splice]
  by_cases before : o < off
  · rw [if_neg (by omega), List.getElem?_append_left (by omega),
      List.getElem?_append_left (by omega), List.getElem?_take_of_lt before]
  · by_cases inside : o < off + bytes.length
    · rw [if_pos (by omega), List.getElem?_append_left (by omega),
        List.getElem?_append_right (by omega), front]
    · rw [if_neg (by omega), List.getElem?_append_right (by omega), both, List.getElem?_drop]
      congr 1
      omega

theorem length_splice (start : off ≤ old.length) :
    (splice old off bytes).length = max old.length (off + bytes.length) := by
  rw [splice, length_append, length_append, length_take, length_drop]
  omega

theorem datum_eq (mapped : v.addr i (dataSlot (off / bsize)) ≠ 0) : v.datum i off = v.byte i off :=
  if_neg mapped

theorem HoleFree.mapped_byte (whole : v.HoleFree i) (inside : off < (v.dinode i).size.toNat) :
    v.addr i (dataSlot (off / bsize)) ≠ 0 :=
  whole.mapped _ (Nat.lt_of_le_of_lt (Nat.div_mul_le_self ..) inside)

theorem Written.holeFree {bytes : List Byte} {v'' : Volume} (written : Written v v' i off bytes)
    (whole : v.HoleFree i) (start : off ≤ (v.dinode i).size.toNat)
    (inside : off + bytes.length ≤ maxfile * bsize)
    (addr : ∀ s, v''.addr i s = v'.addr i s)
    (size : (v''.dinode i).size.toNat = max (v.dinode i).size.toNat (off + bytes.length)) :
    v''.HoleFree i where
  size_le := by
    rw [size]
    exact Nat.max_le.mpr ⟨whole.size_le, inside⟩
  mapped bn low := by
    have limit := whole.size_le
    rw [size] at low
    have small : bn < maxfile := Nat.lt_of_mul_lt_mul_right (a := bsize) (by omega)
    rw [addr]
    by_cases old : bn * bsize < (v.dinode i).size.toNat
    · rw [written.kept bn small (whole.mapped bn old)]
      exact whole.mapped bn old
    · refine written.here bn ⟨by omega, ?_, by omega⟩
      exact Nat.le_of_mul_le_mul_right
        (Nat.le_trans (Nat.div_mul_le_self ..) (by omega)) (show 0 < bsize by decide)

theorem Written.content {bytes : List Byte} {v'' : Volume} (written : Written v v' i off bytes)
    (whole : v.HoleFree i) (start : off ≤ (v.dinode i).size.toNat)
    (inside : off + bytes.length ≤ maxfile * bsize)
    (addr : ∀ s, v''.addr i s = v'.addr i s) (block : v''.block = v'.block)
    (size : (v''.dinode i).size.toNat = max (v.dinode i).size.toNat (off + bytes.length)) :
    v''.content i = splice (v.content i) off bytes := by
  have after := written.holeFree whole start inside addr size
  have start' : off ≤ (v.content i).length := by rwa [length_content]
  apply List.ext_getElem?
  intro o
  rw [getElem?_content, getElem?_splice start', getElem?_content, size]
  by_cases low : o < max (v.dinode i).size.toNat (off + bytes.length)
  · have within : o < maxfile * bsize := by
      have limit := whole.size_le
      omega
    have same : v''.byte i o = v'.datum i o := by
      have mapped := after.mapped_byte (size ▸ low)
      rw [addr] at mapped
      rw [datum_eq mapped, Volume.byte, Volume.byte, addr, block]
    rw [if_pos low, same, written.datum o within]
    by_cases part : off ≤ o ∧ o < off + bytes.length
    · rw [if_pos part, if_pos part.1, List.getD_eq_getElem?_getD,
        List.getElem?_eq_getElem (show o - off < bytes.length by omega)]
      rfl
    · have old : o < (v.dinode i).size.toNat := by omega
      rw [if_neg part, if_pos old, datum_eq (whole.mapped_byte old)]
      split
      · rw [List.getD_eq_getElem?_getD, List.getElem?_eq_none (by omega)]
        rfl
      · rfl
  · rw [if_neg low, if_neg (by omega), if_neg (by omega)]

end Volume

namespace Fs

open Volume (Others Filled Written Span)

variable {fs fs' fs'' : Fs} {ip : InodePtr} {i : Word} {b x : BlockNo} {bn : Nat}
  {fault : Fault → Prop}

def writeData (fs : Fs) (i : Word) (bn : Nat) (data : Block) : Fs :=
  fs.write (fs.view.addr i (dataSlot bn)) data

theorem Held.used {s : AddrSlot} (held : fs.Held ip i) (wf : fs.Wf) (blocks : fs.Blocks)
    (mapped : fs.view.addr i s ≠ 0) : fs.Used (fs.view.addr i s) :=
  blocks.exact.in_use (Volume.ref_eq_some.mpr ⟨held.live_view wf, rfl, mapped⟩)

theorem works_writeData (wf : fs.Wf) (blocks : fs.Blocks) (held : fs.Held ip i)
    (mapped : fs.view.addr i (dataSlot bn) ≠ 0) (data : Block) :
    Works fs ip i (fs.writeData i bn data) ∧
      (fs.writeData i bn data).view = fs.view.setBlock (fs.view.addr i (dataSlot bn)) data := by
  have live := held.live_view wf
  have used := held.used wf blocks mapped
  have view : (fs.writeData i bn data).view =
      fs.view.setBlock (fs.view.addr i (dataSlot bn)) data := wf.view_write used.1 data
  refine ⟨⟨wf.write (wf.data_later used.1) data, ⟨fun b before => ?_, ?_⟩, rfl, rfl,
    (Works.refl wf blocks ip i).cache, ?_⟩, view⟩
  · have data := wf.valid.data
    have before' : b.toNat < fs.sb.dataStart := before
    exact (wf.bit_write_data used.1 (by omega)).trans (blocks.reserved b before)
  · rw [view, Volume.ref_setBlock data fun i' live' =>
      Volume.addr_ne_of_data blocks.exact live mapped live']
    refine blocks.exact.congr (fun _ => rfl) fun b => and_congr_right fun _ => ?_
    exact and_congr_right fun inside => by rw [writeData, wf.bit_write_data used.1 inside]
  · rw [view]
    exact Volume.others_setBlock blocks.exact live mapped data

structure Round (off n m : Nat) : Prop where
  pos : 0 < m
  le : m ≤ n
  fits : off % bsize + m ≤ bsize
  whole : n - m = 0 ∨ off % bsize + m = bsize

theorem roundBytes_round (off : Nat) {n : Nat} (some : 0 < n) : Round off n (roundBytes off n) := by
  have small : off % 512 < 512 := Nat.mod_lt _ (by decide)
  have value : roundBytes off n = min n (512 - off % 512) := rfl
  constructor <;> rw [value]
  · omega
  · omega
  · show off % 512 + _ ≤ 512
    omega
  · show _ ∨ off % 512 + _ = 512
    omega

theorem Round.span {off n m : Nat} (round : Round off n m) (bn : Nat)
    (span : Span (off + m) (n - m) bn) : Span off n bn := by
  have either := (Volume.span_split round.pos round.fits round.whole (k := bn)).mpr (.inr span)
  rwa [Nat.add_sub_cancel' round.le] at either

theorem Round.byte {off n m k : Nat} (round : Round off n m) (low : k < m) (v : Volume) (i : Word) :
    getByte (v.block (v.addr i (dataSlot (off / bsize)))) (off % bsize + k) =
      v.byte i (off + k) := by
  have fits : off % 512 + m ≤ 512 := round.fits
  have block : (off + k) / bsize = off / bsize := by
    show (off + k) / 512 = off / 512
    omega
  have place : (off + k) % bsize = off % bsize + k := by
    show (off + k) % 512 = off % 512 + k
    omega
  rw [Volume.byte, block, place]

theorem wp_readLoop {post : List Byte → Fs → Prop} (wf : fs.Wf) (blocks : fs.Blocks)
    (held : fs.Held ip i) (fuel off n : Nat) (enough : n ≤ fuel)
    (inside : off + n ≤ maxfile * bsize)
    (mapped : ∀ bn, Span off n bn → fs.view.addr i (dataSlot bn) ≠ 0)
    (done : post ((range n).map fun k => fs.view.byte i (off + k)) fs) :
    Wp (readLoop ip fuel off n) post fault fs := by
  induction fuel generalizing off n post with
  | zero =>
    obtain rfl : n = 0 := by omega
    exact done
  | succ fuel ih => cases n with
    | zero => exact done
    | succ n =>
      have some : 0 < n + 1 := Nat.succ_pos n
      have first := Volume.span_first off some
      have there := mapped _ first
      have round := roundBytes_round off some
      have pos := round.pos
      have le := round.le
      rw [readLoop, wp_bind]
      refine wp_bmap wf blocks held (first.lt_maxfile inside) (fun empty => absurd empty there)
        (fun empty => absurd empty there) (fun empty => absurd empty there) fun fs' filled _ => ?_
      obtain rfl := filled.same there
      rw [wp_bind, wp_bread, wp_bind]
      generalize roundBytes off (n + 1) = m at *
      refine ih (off + m) (n + 1 - m) (by omega) (by omega)
        (fun bn span => mapped bn (round.span bn span)) ?_
      rw [wp_pure]
      have block : fs'.disk (fs'.view.addr i (dataSlot (off / bsize))) =
          fs'.view.block (fs'.view.addr i (dataSlot (off / bsize))) :=
        (Disk.volume_block (held.used wf blocks there).1).symm
      have here : ((range m).map fun k => getByte
          (fs'.disk (fs'.view.addr i (dataSlot (off / bsize)))) (off % bsize + k)) =
            (range m).map fun k => fs'.view.byte i (off + k) := by
        refine List.map_congr_left fun k member => ?_
        rw [block, round.byte (List.mem_range.mp member)]
      have split : (range (n + 1)).map (fun k => fs'.view.byte i (off + k)) =
          (range m).map (fun k => fs'.view.byte i (off + k)) ++
            (range (n + 1 - m)).map fun k => fs'.view.byte i (off + m + k) := by
        conv_lhs => rw [← Nat.add_sub_cancel' le, List.range_add, List.map_append, List.map_map]
        simp only [Function.comp_def, Nat.add_assoc]
      rw [here, ← split]
      exact done

theorem Mapped.missing_le {off n m : Nat} (mapped : Mapped fs ip i (off / bsize) fs')
    (round : Round off n m) (inside : off + n ≤ maxfile * bsize)
    (same : ∀ s, fs''.view.addr i s = fs'.view.addr i s) (free : fs''.free = fs'.free)
    (some : 0 < fs''.view.missing i (off + m) (n - m))
    (short : fs''.free + fs''.view.indirects i ≤ fs''.view.missing i (off + m) (n - m)) :
    0 < fs.view.missing i off n ∧
      fs.free + fs.view.indirects i ≤ fs.view.missing i off n := by
  have first := Volume.span_first off (Nat.lt_of_lt_of_le round.pos round.le)
  have low := first.lt_maxfile inside
  have sum := Nat.add_sub_cancel' round.le
  have sub : ∀ bn, Span (off + m) (n - m) bn → Span off (m + (n - m)) bn := by
    rw [sum]
    exact round.span
  have elsewhere : ∀ bn, bn < maxfile → bn ≠ off / bsize → fs''.view.addr i (dataSlot bn) =
      fs.view.addr i (dataSlot bn) := by
    intro bn small other
    rw [same, mapped.filled.elsewhere bn small other]
  rw [free, Volume.indirects, same] at short
  by_cases empty : fs.view.addr i (dataSlot (off / bsize)) = 0
  · have fewer := Volume.missing_filled fs''.view sub (by rwa [sum]) low empty
      (by rw [same]; exact mapped.filled.here) elsewhere
    rw [sum] at fewer
    have spent := mapped.spent
    have count : fs'.view.indirects i =
        if fs'.view.addr i (.direct indirectIndex) = 0 then 0 else 1 := rfl
    exact ⟨by omega, by omega⟩
  · obtain rfl := mapped.same empty
    have fewer := Volume.missing_rest fs''.view sub fun bn small _ none => by
      rwa [same] at none
    rw [sum] at fewer
    exact ⟨Nat.lt_of_lt_of_le some fewer, Nat.le_trans short fewer⟩

def rangeBlocks (off n : Nat) : Nat :=
  if n = 0 then 0 else (off + n - 1) / bsize + 1 - off / bsize

theorem Round.blocks {off n m : Nat} (round : Round off n m) :
    rangeBlocks off n = rangeBlocks (off + m) (n - m) + 1 := by
  obtain ⟨pos, le, fits, whole⟩ := round
  have size : bsize = 512 := rfl
  rw [size] at fits whole
  rw [rangeBlocks, rangeBlocks, size]
  split_ifs <;> omega

def LogsFile (fs fs' : Fs) (i : Word) (rounds : Nat) : Prop :=
  ∃ (data : List BlockNo) (a : BlockNo), data.length ≤ rounds ∧
    (fs.view.addr i (.direct indirectIndex) ≠ 0 → a = fs.view.addr i (.direct indirectIndex)) ∧
    Logs fs fs' (a :: data) (6 * rounds)

theorem LogsFile.refl (fs : Fs) (i : Word) (rounds : Nat) : LogsFile fs fs i rounds :=
  ⟨[], _, Nat.zero_le _, fun _ => rfl, .refl ..⟩

theorem LogsFile.round {rounds calls : Nat}
    (logs : Logs fs fs' (ownBlocks fs'.view i bn) calls) (few : calls ≤ 6)
    (stays : fs.view.addr i (.direct indirectIndex) ≠ 0 →
      fs'.view.addr i (.direct indirectIndex) = fs.view.addr i (.direct indirectIndex))
    (rest : LogsFile fs' fs'' i rounds) : LogsFile fs fs'' i (rounds + 1) := by
  obtain ⟨data, a, length, whole, later⟩ := rest
  refine ⟨fs'.view.addr i (dataSlot bn) :: data, a, Nat.succ_le_succ length, fun there => ?_, ?_⟩
  · have same := stays there
    rw [← same] at there ⊢
    exact whole there
  · refine (logs.trans later).mono ?_ (by omega)
    rw [ownBlocks]
    split
    · simp
    · rw [← whole ‹_›]
      simp

theorem wp_writeLoop {post : Unit → Fs → Prop} (wf : fs.Wf) (blocks : fs.Blocks)
    (held : fs.Held ip i) (fuel off : Nat) (src : List Byte) (enough : src.length ≤ fuel)
    (inside : off + src.length ≤ maxfile * bsize) (running : 0 < fs.outstanding)
    (big : ∀ fs', LogsFile fs fs' i (rangeBlocks off src.length) → fs'.LogFull →
      fault (.panic "too big a transaction"))
    (full : 0 < fs.view.missing i off src.length →
      fs.free + fs.view.indirects i ≤ fs.view.missing i off src.length →
      fault (.panic "balloc: out of blocks"))
    (done : ∀ fs', Works fs ip i fs' → Written fs.view fs'.view i off src →
      LogsFile fs fs' i (rangeBlocks off src.length) → post () fs') :
    Wp (writeLoop ip fuel off src) post fault fs := by
  induction fuel generalizing off src fs post with
  | zero =>
    obtain rfl : src = [] := List.eq_nil_of_length_eq_zero (by omega)
    exact done fs (.refl wf blocks ip i) (.nil fs.view i off) (.refl ..)
  | succ fuel ih => cases src with
    | nil => exact done fs (.refl wf blocks ip i) (.nil fs.view i off) (.refl ..)
    | cons byte rest =>
      generalize whole : byte :: rest = src at *
      have some : 0 < src.length := by rw [← whole]; exact Nat.succ_pos _
      have first := Volume.span_first off some
      have round := roundBytes_round off some
      have le := round.le
      have low := first.lt_maxfile inside
      rw [round.blocks] at big done
      rw [← whole, writeLoop, whole, wp_bind]
      refine wp_bmap wf blocks held low (fun _ => running) (fun _ fs' x a whole logs => ?_)
        (fun empty none => ?_) fun fs₁ mapped logs => ?_
      · exact big fs' ⟨[x], a, by simp, whole, logs.mono (by simp) (by omega)⟩
      · have missing := Volume.missing_pos first inside empty
        exact full missing (Nat.le_trans none missing)
      have stays := mapped.filled.stays
      rw [wp_bind, wp_bread, wp_bind]
      refine wp_logWrite (logs.outstanding ▸ running)
        (big fs₁ (.round logs (by decide) stays (.refl ..))) ?_
      generalize roundBytes off src.length = m at *
      have chunk : (src.take m).length = m := by rw [length_take, Nat.min_eq_left le]
      have tail : (src.drop m).length = src.length - m := length_drop
      have works := mapped.works
      have held₁ := works.held held
      obtain ⟨works₂, view₂⟩ := works_writeData works.wf works.blocks held₁ mapped.filled.here
        (putBytes (fs₁.disk (fs₁.view.addr i (dataSlot (off / bsize)))) (off % bsize)
          (src.take m))
      have pos := round.pos
      have addr : ∀ s, (fs₁.writeData i (off / bsize) (putBytes
          (fs₁.disk (fs₁.view.addr i (dataSlot (off / bsize)))) (off % bsize)
          (src.take m))).view.addr i s = fs₁.view.addr i s := fun s => by
        rw [view₂]
        exact Volume.addr_setBlock _ (Volume.addr_ne_of_data works.blocks.exact
          (held₁.live_view works.wf) mapped.filled.here (held₁.live_view works.wf))
      have logs₂ : Logs fs (fs₁.writeData i (off / bsize) (putBytes
          (fs₁.disk (fs₁.view.addr i (dataSlot (off / bsize)))) (off % bsize) (src.take m)))
          (ownBlocks fs₁.view i (off / bsize)) 6 := logs.write (.inr List.mem_cons_self) _
      have own : ownBlocks fs₁.view i (off / bsize) = ownBlocks (fs₁.writeData i (off / bsize)
          (putBytes (fs₁.disk (fs₁.view.addr i (dataSlot (off / bsize)))) (off % bsize)
            (src.take m))).view i (off / bsize) := by
        rw [ownBlocks, ownBlocks, addr, addr]
      rw [own] at logs₂
      have stays₂ := fun there => (addr _).trans (stays there)
      rw [← tail] at big done
      refine ih works₂.wf works₂.blocks (works₂.held held₁) (off + m) (src.drop m)
        (by omega) (by omega) (logs₂.outstanding ▸ running)
        (fun fs' rest => big fs' (.round logs₂ (Nat.le_refl 6) stays₂ rest))
        (fun more short => ?_) fun fs' works' written rest =>
          done fs' ((works.trans works₂).trans works') ?_
            (.round logs₂ (Nat.le_refl 6) stays₂ rest)
      · rw [tail] at more short
        have before := mapped.missing_le round inside addr ?_ more short
        · exact full before.1 before.2
        · exact works.wf.free_write_data (held₁.used works.wf works.blocks mapped.filled.here).1
      · have block : fs₁.disk (fs₁.view.addr i (dataSlot (off / bsize))) =
            fs₁.view.block (fs₁.view.addr i (dataSlot (off / bsize))) :=
          (Disk.volume_block (held₁.used works.wf works.blocks mapped.filled.here).1).symm
        rw [view₂, block] at written
        rw [← List.take_append_drop m src]
        refine .round mapped.filled works.blocks.exact (held₁.live_view works.wf) low
          (by omega) (by rw [chunk]; exact round.fits) ?_ (by rw [chunk]; exact written)
        rw [chunk, tail]
        exact round.whole

variable {off n : Word}

theorem wp_readi {post : ReadResult → Fs → Prop} (wf : fs.Wf) (blocks : fs.Blocks)
    (held : fs.Held ip i) (file : (fs.inode ip).din.type ≠ tDev) (whole : fs.view.HoleFree i)
    (failed : (fs.inode ip).din.size < off ∨ off + n < off → post (.error []) fs)
    (done : off ≤ (fs.inode ip).din.size → off.toNat + n.toNat < 2 ^ 32 →
      post (.ok (((fs.view.content i).drop off.toNat).take n.toNat)) fs) :
    Wp (readi ip off n) post fault fs := by
  have dinode := wf.view_dinode held.toCopies
  have limit := whole.size_le
  rw [readi, wp_bind, wp_get]
  dsimp only
  rw [if_neg file]
  split
  · rename_i bad
    exact failed bad
  · rename_i fits
    obtain ⟨inside, straight⟩ := not_or.mp fits
    have inside' : off.toNat ≤ (fs.inode ip).din.size.toNat := Nat.le_of_not_lt inside
    have straight' := Nat.le_of_not_lt straight
    rw [toNat_add] at straight'
    have sum : (off + n).toNat = off.toNat + n.toNat := by
      rw [toNat_add]
      omega
    have count : (if (fs.inode ip).din.size < off + n then (fs.inode ip).din.size - off
        else n).toNat = min n.toNat ((fs.view.dinode i).size.toNat - off.toNat) := by
      rw [dinode]
      split
      · rename_i cut
        have cut' := lt_def.mp cut
        rw [BitVec.toNat_sub]
        omega
      · rename_i short
        have short' := Nat.le_of_not_lt short
        omega
    simp only [wp_bind, wp_pure]
    rw [count]
    rw [dinode] at limit ⊢
    refine wp_readLoop wf blocks held _ _ _ (Nat.le_refl _) (by omega) (fun bn span => ?_) ?_
    · refine whole.mapped bn ?_
      have high := span.2.2
      rw [dinode]
      omega
    · rw [← dinode, ← Volume.content_slice]
      exact done (BitVec.not_lt.mp inside) (by omega)

theorem addr_resize (v : Volume) (i : Word) (size : Word) (i' : Word) (s : AddrSlot) :
    (v.setDinode i { v.dinode i with size := size }).addr i' s = v.addr i' s := by
  refine Volume.addr_congr ?_ fun _ => rfl
  show (Function.update v.dinode i _ i').addrs = _
  by_cases same : i' = i
  · rw [same, Function.update_self]
  · rw [Function.update_of_ne same]

def resize (fs : Fs) (ip : InodePtr) (size : Word) : Fs :=
  (fs.put ip { fs.inode ip with din := { (fs.inode ip).din with size := size } }).stored ip

theorem Wf.bit_stored (wf : fs.Wf) (copies : fs.Copies ip i) (inside : b.toNat < fs.sb.size.toNat) :
    (fs.stored ip).bit b = fs.bit b := by
  refine bit_write fun same => ?_
  have before := (wf.iblock_bounds (wf.known ip copies.ref copies.valid)).2
  have after := (wf.bblock_later inside).2
  rw [same] at after
  omega

theorem works_resize (wf : fs.Wf) (blocks : fs.Blocks) (held : fs.Held ip i) (size : Word) :
    Works fs ip i (fs.resize ip size) ∧ (fs.resize ip size).view =
      fs.view.setDinode i { fs.view.dinode i with size := size } := by
  have dinode := wf.view_dinode held.toCopies
  have wf₁ := wf.put ip { (fs.inode ip).din with size := size }
  have copies₁ := held.toCopies.put ip { (fs.inode ip).din with size := size }
  have view : (fs.resize ip size).view =
      fs.view.setDinode i { fs.view.dinode i with size := size } := by
    rw [resize, wf₁.view_stored copies₁, wf.view_put held.toCopies, dinode]
  have bits : ∀ b : BlockNo, b.toNat < fs.sb.size.toNat → (fs.resize ip size).bit b = fs.bit b :=
    fun b low => wf₁.bit_stored copies₁ low
  have live : ∀ i', (fs.view.setDinode i { fs.view.dinode i with size := size }).Live i' ↔
      fs.view.Live i' := by
    intro i'
    rw [Volume.Live, Volume.Live]
    show (Function.update fs.view.dinode i _ i').type ≠ 0 ↔ _
    by_cases same : i' = i
    · rw [same, Function.update_self]
    · rw [Function.update_of_ne same]
  refine ⟨⟨wf₁.stored copies₁, ⟨fun b before => ?_, ?_⟩, rfl, rfl, ⟨size, _, rfl⟩, ?_⟩, view⟩
  · have data := wf.valid.data
    have before' : b.toNat < fs.sb.dataStart := before
    rw [bits b (by omega), blocks.reserved b before']
  · rw [view]
    refine blocks.exact.congr (fun slot => ?_) fun b => and_congr_right fun _ =>
      and_congr_right fun low => by rw [bits b low]
    simp only [Volume.ref, addr_resize, live]
  · rw [view]
    exact Volume.others_setDinode _

structure Wrote (fs : Fs) (ip : InodePtr) (i : Word) (off : Nat) (src : List Byte) (fs' : Fs) :
    Prop where
  works : Works fs ip i fs'
  whole : fs'.view.HoleFree i
  content : fs'.view.content i = Volume.splice (fs.view.content i) off src

def Fits (fs : Fs) (ip : InodePtr) (off n : Word) : Prop :=
  off ≤ (fs.inode ip).din.size ∧ off.toNat + n.toNat ≤ maxfile * bsize

instance (fs : Fs) (ip : InodePtr) (off n : Word) : Decidable (fs.Fits ip off n) :=
  inferInstanceAs (Decidable (_ ∧ _))

theorem fits_iff : fs.Fits ip off n ↔
    ¬ ((fs.inode ip).din.size < off ∨ off + n < off) ∧
      ¬ ofNat 32 (maxfile * bsize) < off + n := by
  have limit : (ofNat 32 (maxfile * bsize)).toNat = 71680 := rfl
  rw [Fits, not_or, BitVec.not_lt, and_assoc]
  refine and_congr_right fun _ => ?_
  rw [BitVec.not_lt, BitVec.not_lt, le_def, le_def, limit, toNat_add]
  show off.toNat + n.toNat ≤ 71680 ↔ _
  omega

def writeEnd (ip : InodePtr) (size off n : Word) : FsM Int := do
  if 0 < n ∧ size < off + n then
    let inode ← getInode ip
    setInode ip { inode with din := { inode.din with size := off + n } }
    iupdate ip
  return n.toInt

variable {post : Int → Fs → Prop}

theorem wp_writeEnd {src : List Byte} (wf : fs.Wf) (held : fs.Held ip i)
    (whole : fs.view.HoleFree i) (length : src.length = n.toNat) (fits : fs.Fits ip off n)
    (works : Works fs ip i fs') (written : Written fs.view fs'.view i off.toNat src)
    (running : 0 < fs.outstanding)
    (big : fs'.LogFull → fault (.panic "too big a transaction"))
    (done : ∀ fs', Wrote fs ip i off.toNat src fs' → post n.toNat fs') :
    Wp (writeEnd ip (fs.inode ip).din.size off n) post fault fs' := by
  obtain ⟨start, within⟩ := fits
  have bound : maxfile * bsize = 71680 := rfl
  have sum : (off + n).toNat = off.toNat + n.toNat := by
    rw [toNat_add]
    omega
  have result : n.toInt = n.toNat := by rw [BitVec.toInt_eq_toNat_cond, if_pos (by omega)]
  have start' : off.toNat ≤ (fs.inode ip).din.size.toNat := start
  have held' := works.held held
  obtain ⟨addrs, same⟩ := written.dinode
  have size' : (fs'.view.dinode i).size = (fs.view.dinode i).size := by rw [same]
  rw [← wf.view_dinode held.toCopies] at start' ⊢
  rw [writeEnd, result]
  split
  · rename_i grows
    have grows' : (fs.view.dinode i).size.toNat < (off + n).toNat := lt_def.mp grows.2
    rw [wp_bind, wp_getInode, wp_bind, wp_setInode, wp_bind]
    refine wp_iupdate (works.outstanding ▸ running) big ?_
    rw [wp_pure]
    show post _ (fs'.resize ip (off + n))
    obtain ⟨works₂, view₂⟩ := works_resize works.wf works.blocks held' (off + n)
    have size : ((fs'.resize ip (off + n)).view.dinode i).size.toNat =
        max (fs.view.dinode i).size.toNat (off.toNat + src.length) := by
      rw [view₂, Volume.dinode_setDinode, length]
      show (off + n).toNat = _
      omega
    have addr : ∀ s, (fs'.resize ip (off + n)).view.addr i s = fs'.view.addr i s := fun s => by
      rw [view₂, addr_resize]
    have block : (fs'.resize ip (off + n)).view.block = fs'.view.block := by
      rw [view₂]
      rfl
    refine done _ ⟨works.trans works₂, ?_, ?_⟩
    · exact written.holeFree whole start' (by omega) addr size
    · exact written.content whole start' (by omega) addr block size
  · rename_i stays
    have size : (fs'.view.dinode i).size.toNat =
        max (fs.view.dinode i).size.toNat (off.toNat + src.length) := by
      rw [size', length]
      by_cases some : 0 < n
      · have short := Nat.le_of_not_lt fun more => stays ⟨some, lt_def.mpr more⟩
        omega
      · have none : n.toNat = 0 := Nat.eq_zero_of_not_pos fun more => some (lt_def.mpr more)
        omega
    rw [wp_pure]
    refine done _ ⟨works, ?_, ?_⟩
    · exact written.holeFree whole start' (by omega) (fun _ => rfl) size
    · exact written.content whole start' (by omega) (fun _ => rfl) rfl size

theorem wp_writei {src : List Byte} (wf : fs.Wf) (blocks : fs.Blocks) (held : fs.Held ip i)
    (file : (fs.inode ip).din.type ≠ tDev) (whole : fs.view.HoleFree i)
    (length : src.length = n.toNat) (failed : ¬ fs.Fits ip off n → post (-1) fs)
    (running : 0 < fs.outstanding)
    (big : ∀ fs', LogsFile fs fs' i (rangeBlocks off.toNat n.toNat) → fs'.LogFull →
      fault (.panic "too big a transaction"))
    (full : 0 < fs.view.missing i off.toNat n.toNat →
      fs.free + fs.view.indirects i ≤ fs.view.missing i off.toNat n.toNat →
      fault (.panic "balloc: out of blocks"))
    (done : ∀ fs', fs.Fits ip off n → Wrote fs ip i off.toNat src fs' → post n.toNat fs') :
    Wp (writei ip src off n) post fault fs := by
  rw [writei, wp_bind, wp_get]
  dsimp only
  rw [if_neg file]
  by_cases fits : fs.Fits ip off n
  · obtain ⟨straight, within⟩ := fits_iff.mp fits
    have end_le := fits.2
    rw [if_neg straight, if_neg within, wp_bind]
    refine wp_writeLoop wf blocks held _ _ _ (Nat.le_refl _) (by omega) running
      (by rw [length]; exact big) (by rw [length]; exact full) fun fs₁ works written logs => ?_
    rw [length] at logs
    exact wp_writeEnd wf held whole length fits works written running (big fs₁ logs)
      fun fs' => done fs' fits
  · split
    · exact failed fits
    · rename_i straight
      rw [if_pos (not_not.mp fun within => fits (fits_iff.mpr ⟨straight, within⟩))]
      exact failed fits

end Fs

end Xv6
