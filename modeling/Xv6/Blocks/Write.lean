/-
  Blocks/Write.lean --- `writei`: a file gets new bytes.

  `Written` is what a number of bytes stored into a file, from some offset on, makes of the contents
  of all files; writes one after the other are one write.
-/
import Mathlib.Data.List.GetD
import Xv6.Blocks.Inode
import Xv6.Blocks.Read

set_option autoImplicit false

namespace Xv6

open Function List Foundation

variable {sb : Superblock} {D Z : Set Slot} {ino : Nat → Dinode Addrs} {disk disk' : Disk}
  {mem : FsMem Addrs} {ip : Slot} {d d' : Dinode Addrs} {i off n : Nat}

/-! ## Where the bytes come from -/

/-- The byte at an address of a user process. -/
def UserMem.byte (um : UserMem) (a : Nat) : Option UInt8 :=
  (um.page (a / PGSIZE)).map fun page => page (a % PGSIZE)

theorem page_add {va j : Nat} (hva : va < 2 ^ 64) (hj : j < PGSIZE - va % PGSIZE) :
    (va + j) % 2 ^ 64 = va + j ∧ (va + j) / PGSIZE = va / PGSIZE ∧
    (va + j) % PGSIZE = va % PGSIZE + j := by
  unfold PGSIZE at *
  omega

theorem page_next {va j : Nat} (hj : PGSIZE - va % PGSIZE ≤ j) :
    (va + j) % 2 ^ 64 =
    ((va / PGSIZE + 1) * PGSIZE % 2 ^ 64 + (j - (PGSIZE - va % PGSIZE))) % 2 ^ 64 := by
  unfold PGSIZE at *
  omega

theorem UserMem.copyinLoop_spec (um : UserMem) : ∀ (fuel va len : Nat), va < 2 ^ 64 → len ≤ fuel →
    (um.copyinLoop fuel va len).1.length ≤ len ∧
    ((um.copyinLoop fuel va len).2 = true → (um.copyinLoop fuel va len).1.length = len) ∧
    ∀ j, j < (um.copyinLoop fuel va len).1.length →
      um.byte ((va + j) % 2 ^ 64) = some ((um.copyinLoop fuel va len).1.getD j 0) := by
  intro fuel
  induction fuel with
  | zero =>
    intro va len _ hlen
    obtain rfl : len = 0 := by omega
    simp [copyinLoop]
  | succ fuel ih =>
    intro va len hva hlen
    cases len with
    | zero => simp [copyinLoop]
    | succ len =>
      simp only [copyinLoop]
      cases hpage : um.page (va / PGSIZE) with
      | none => simp
      | some page =>
        dsimp only
        have hmod := Nat.mod_lt va (show 0 < PGSIZE by decide)
        set m := min (PGSIZE - va % PGSIZE) (len + 1) with hm
        set next := (va / PGSIZE + 1) * PGSIZE % 2 ^ 64 with hnext
        obtain ⟨hle, hall, hbytes⟩ := ih next (len + 1 - m) (Nat.mod_lt _ (by norm_num)) (by omega)
        set rest := um.copyinLoop fuel next (len + 1 - m) with hrest
        have hfirst : ((range m).map fun i => page (va % PGSIZE + i)).length = m := by
          rw [length_map, length_range]
        refine ⟨?_, ?_, ?_⟩
        · rw [length_append, hfirst]
          omega
        · intro hok
          rw [length_append, hfirst, hall hok]
          omega
        · intro j hj
          rw [length_append, hfirst] at hj
          by_cases hjm : j < m
          · obtain ⟨haddr, hdiv, hmod'⟩ := page_add hva (show j < PGSIZE - va % PGSIZE by omega)
            rw [haddr, UserMem.byte, hdiv, hmod', hpage,
              getD_append _ _ _ _ (by rw [hfirst]; exact hjm)]
            simp [getD, hjm]
          · have hmn : m = PGSIZE - va % PGSIZE := by omega
            have haddr : (va + j) % 2 ^ 64 = (next + (j - m)) % 2 ^ 64 := by
              rw [hmn, hnext]
              exact page_next (by omega)
            rw [haddr, hbytes (j - m) (by omega),
              getD_append_right _ _ _ _ (by rw [hfirst]; omega), hfirst]

/-- A copy that fails does so at a byte that is not mapped. -/
theorem UserMem.copyinLoop_fail (um : UserMem) : ∀ (fuel va len : Nat), va < 2 ^ 64 → len ≤ fuel →
    (um.copyinLoop fuel va len).2 = false → ∃ j, j < len ∧ um.byte ((va + j) % 2 ^ 64) = none := by
  intro fuel
  induction fuel with
  | zero =>
    intro va len _ hlen hfail
    obtain rfl : len = 0 := by omega
    simp [copyinLoop] at hfail
  | succ fuel ih =>
    intro va len hva hlen hfail
    cases len with
    | zero => simp [copyinLoop] at hfail
    | succ len =>
      have hpos : 0 < PGSIZE - va % PGSIZE := Nat.sub_pos_of_lt (Nat.mod_lt va (by decide))
      simp only [copyinLoop] at hfail
      cases hpage : um.page (va / PGSIZE) with
      | none =>
        obtain ⟨haddr, hdiv, -⟩ := page_add hva hpos
        refine ⟨0, Nat.succ_pos len, ?_⟩
        rw [haddr, UserMem.byte, hdiv, hpage]
        rfl
      | some page =>
        rw [hpage] at hfail
        dsimp only at hfail
        obtain ⟨j, hj, hnone⟩ := ih _ _ (Nat.mod_lt _ (by norm_num)) (by omega) hfail
        refine ⟨min (PGSIZE - va % PGSIZE) (len + 1) + j, by omega, ?_⟩
        rw [← hnone, page_next (by omega)]
        congr 2
        omega

/-- What `either_copyin` copies. -/
def Src.copied (src : Src) (tot m : Nat) : List UInt8 × Bool :=
  match src with
  | .kernel bytes => ((bytes.drop tot).take m, true)
  | .user um va => um.copyin ((va + tot) % 2 ^ 64) m

/-- Byte `j` of what is to be written. -/
def Src.byte (src : Src) (j : Nat) : Option UInt8 :=
  match src with
  | .kernel bytes => bytes[j]?
  | .user um va => um.byte ((va + j) % 2 ^ 64)

/-- There are `n` bytes, if they are of the kernel. -/
def Src.Fits (src : Src) (n : Nat) : Prop :=
  match src with
  | .kernel bytes => bytes.length = n
  | .user _ _ => True

theorem Src.copied_spec {src : Src} (hsrc : src.Fits n) {tot m : Nat} (hm : tot + m ≤ n) :
    (src.copied tot m).1.length ≤ m ∧
    ((src.copied tot m).2 = true → (src.copied tot m).1.length = m) ∧
    ∀ j, j < (src.copied tot m).1.length →
      src.byte (tot + j) = some ((src.copied tot m).1.getD j 0) := by
  cases src with
  | kernel bytes =>
    have hlen : bytes.length = n := hsrc
    have hcopied : ((bytes.drop tot).take m).length = m := by
      rw [length_take, length_drop]
      omega
    refine ⟨hcopied.le, fun _ => hcopied, ?_⟩
    intro j hj
    have hj' : j < m := hcopied ▸ hj
    have hb : tot + j < bytes.length := by omega
    change bytes[tot + j]? = some (((bytes.drop tot).take m).getD j 0)
    rw [getD_eq_getElem?_getD, getElem?_take_of_lt hj', getElem?_drop,
      getElem?_eq_getElem hb, Option.getD_some]
  | user um va =>
    obtain ⟨hle, hall, hbytes⟩ :=
      um.copyinLoop_spec m ((va + tot) % 2 ^ 64) m (Nat.mod_lt _ (by norm_num)) le_rfl
    refine ⟨hle, hall, fun j hj => ?_⟩
    have haddr : (va + (tot + j)) % 2 ^ 64 = ((va + tot) % 2 ^ 64 + j) % 2 ^ 64 := by omega
    change um.byte ((va + (tot + j)) % 2 ^ 64) = _
    rw [haddr]
    exact hbytes j hj

/-! ## Stored bytes -/

/-- `w` is stored into the file from `off` on.  The file may have got blocks for it. -/
structure Written (ino : Nat → Dinode Addrs) (disk : Disk) (i off : Nat) (w : List UInt8)
    (d' : Dinode Addrs) (disk' : Disk) : Prop where
  same : d' = { ino i with addrs := d'.addrs }
  keep : ∀ k, mapped disk (ino i) k ≠ 0 → mapped disk' d' k = mapped disk (ino i) k
  bytes : ∀ o, byteAt disk' d' o =
    if off ≤ o ∧ o < off + w.length then w.getD (o - off) 0 else byteAt disk (ino i) o
  others : ∀ j, j ≠ i → ∀ o, byteAt disk' (ino j) o = byteAt disk (ino j) o

namespace Written

theorem of_grown (h : Grown ino disk i d' disk') : Written ino disk i off [] d' disk' where
  same := h.same
  keep := h.keep
  bytes o := by
    have hb := h.bytes i o
    rw [update_self] at hb
    rw [hb, if_neg (by rw [length_nil]; omega)]
  others j hj o := by
    have hb := h.bytes j o
    rwa [update_of_ne hj] at hb

theorem trans {disk₂ : Disk} {d₂ : Dinode Addrs} {w w₂ : List UInt8}
    (h : Written ino disk i off w d' disk')
    (h₂ : Written (update ino i d') disk' i (off + w.length) w₂ d₂ disk₂) :
    Written ino disk i off (w ++ w₂) d₂ disk₂ where
  same := by
    have hsame := h₂.same
    rw [update_self] at hsame
    rw [hsame, h.same]
  keep k hk := by
    have hkeep := h.keep k hk
    have hkeep₂ := h₂.keep k
    rw [update_self, hkeep] at hkeep₂
    exact hkeep₂ hk
  bytes o := by
    have hb := h₂.bytes o
    rw [update_self, h.bytes o] at hb
    rw [hb, length_append]
    by_cases hlo : off ≤ o
    · by_cases hmid : o < off + w.length
      · rw [if_neg (by omega), if_pos ⟨hlo, hmid⟩, if_pos (by omega),
          getD_append _ _ _ _ (by omega)]
      · by_cases hhi : o < off + w.length + w₂.length
        · rw [if_pos (by omega), if_pos (by omega),
            getD_append_right _ _ _ _ (by omega), Nat.sub_sub]
        · rw [if_neg (by omega), if_neg (by omega), if_neg (by omega)]
    · rw [if_neg (by omega), if_neg (by omega), if_neg (by omega)]
  others j hj o := by
    have hb := h₂.others j hj o
    rw [update_of_ne hj] at hb
    rw [hb, h.others j hj o]

end Written

variable {data : Block}

namespace FsInv

/-- No two files, and no two places of one, have a block in common. -/
theorem mapped_inj (h : FsInv sb ∅ D Z ino disk mem) {i j k l : Nat}
    (hk : mapped disk (ino i) k ≠ 0)
    (heq : mapped disk (ino j) l = mapped disk (ino i) k) : j = i ∧ l = k := by
  obtain ⟨P, hP, hptr⟩ := mapped_ptr hk
  obtain ⟨P', hP', hptr'⟩ := mapped_ptr (heq.symm ▸ hk)
  rw [h.own.inj P' P (hptr'.trans (heq.trans hptr.symm)) (by rw [hptr', heq]; exact hk), hP] at hP'
  simp only [Option.some.injEq, Prod.mk.injEq] at hP'
  exact ⟨hP'.1.symm, hP'.2.symm⟩

theorem mapped_setData (h : FsInv sb ∅ D Z ino disk mem) {bn j : Nat} {e : Dinode Addrs}
    (hd : ino i = d) (hm : mapped disk d bn ≠ 0) (he : ino j = e) (k : Nat) :
    mapped (update disk (mapped disk d bn) data) e k = mapped disk e k :=
  mapped_congr (fun _ => update_of_ne (he ▸ h.mapped_ne_indirect hd hm j) _ _) k

/-- Bytes stored into one block. -/
theorem written (h : FsInv sb ∅ D Z ino disk mem) (hm : mapped disk (ino i) (off / BSIZE) ≠ 0)
    {w : List UInt8} (hw : off % BSIZE + w.length ≤ BSIZE) :
    Written ino disk i off w (ino i) (update disk (mapped disk (ino i) (off / BSIZE))
      (storeBytes (disk (mapped disk (ino i) (off / BSIZE))) (off % BSIZE) w)) where
  same := rfl
  keep k _ := h.mapped_setData rfl hm rfl k
  bytes o := by
    rw [byteAt, h.mapped_setData rfl hm rfl, byteAt]
    have hdm := Nat.div_add_mod off BSIZE
    have hdo := Nat.div_add_mod o BSIZE
    have hmo := Nat.mod_lt o (show 0 < BSIZE by decide)
    by_cases hbn : o / BSIZE = off / BSIZE
    · rw [hbn, if_neg hm, if_neg hm, update_self]
      rw [hbn] at hdo
      by_cases hin : off ≤ o ∧ o < off + w.length
      · have hsub : o - off = o % BSIZE - off % BSIZE := by omega
        rw [if_pos hin, hsub]
        exact getByte_storeBytes hw (by omega) (by omega)
      · rw [if_neg hin]
        rcases Nat.lt_or_ge o off with hlt | hge
        · exact getByte_storeBytes_lt (by omega)
        · exact getByte_storeBytes_ge (by omega)
    · have hout : ¬ (off ≤ o ∧ o < off + w.length) := by
        rintro ⟨hlo, hhi⟩
        refine hbn (Nat.div_eq_of_lt_le ?_ ?_)
        · rw [Nat.mul_comm]
          omega
        · rw [Nat.mul_comm, Nat.mul_succ]
          omega
      rw [if_neg hout]
      split
      · rfl
      · rw [update_of_ne fun heq => hbn (h.mapped_inj hm heq).2]
  others j hj o := by
    rw [byteAt, h.mapped_setData rfl hm rfl, byteAt]
    split
    · rfl
    · rw [update_of_ne fun heq => hj (h.mapped_inj hm heq).1]

end FsInv

/-! ## `writei` -/

/-- No copy of the `n` bytes fails. -/
def Src.Ok (src : Src) (n : Nat) : Prop := ∀ tot m, tot + m ≤ n → (src.copied tot m).2 = true

/-- A copy from user memory succeeds if all bytes are mapped. -/
theorem Src.ok_user_iff {um : UserMem} {va : Nat} :
    Src.Ok (.user um va) n ↔ ∀ j, j < n → (um.byte ((va + j) % 2 ^ 64)).isSome = true := by
  constructor
  · intro hok j hj
    have hfits : Src.Fits (.user um va) n := trivial
    obtain ⟨-, hall, hbytes⟩ := Src.copied_spec hfits (show 0 + n ≤ n by omega)
    have hbyte := hbytes j (by rw [hall (hok 0 n (by omega))]; exact hj)
    rw [Nat.zero_add] at hbyte
    rw [show um.byte ((va + j) % 2 ^ 64) = some _ from hbyte, Option.isSome_some]
  · intro hmapped tot m hm
    by_contra hfail
    obtain ⟨j, hj, hnone⟩ :=
      um.copyinLoop_fail m ((va + tot) % 2 ^ 64) m (Nat.mod_lt _ (by norm_num)) le_rfl
      (Bool.not_eq_true _ ▸ hfail)
    have haddr : ((va + tot) % 2 ^ 64 + j) % 2 ^ 64 = (va + (tot + j)) % 2 ^ 64 := by omega
    have := hmapped (tot + j) (by omega)
    rw [← haddr, hnone] at this
    cases this

/-- A copy that fails has copied nothing. -/
def Src.Whole (src : Src) (n : Nat) : Prop :=
  ∀ tot m, tot + m ≤ n → (src.copied tot m).2 = false → (src.copied tot m).1 = []

/-- What the loop of `writei` does, with `tot` bytes written before: `w` is stored from `off` on,
and there are blocks up to `off'`. -/
structure Stored (sb : Superblock) (D Z : Set Slot) (ino : Nat → Dinode Addrs) (disk : Disk)
    (mem : FsMem Addrs) (ip : Slot) (src : Src) (off tot off' : Nat) (w : List UInt8)
    (d' : Dinode Addrs) (disk' : Disk) : Prop where
  inv : FsInv sb ∅ (insert ip D) Z (Function.update ino (mem.inode ip).inum d') disk'
    (mem.setDinode ip d')
  written : Written ino disk (mem.inode ip).inum off w d' disk'
  blocks : ∀ bn, off ≤ bn * BSIZE → bn * BSIZE < off' → mapped disk' d' bn ≠ 0
  source : ∀ j, j < w.length → src.byte (tot + j) = some (w.getD j 0)
  lo : off ≤ off'
  hi : off' ≤ off + w.length

namespace Stored

variable {src : Src} {tot off' : Nat} {w : List UInt8}

theorem nil (h : FsInv sb ∅ D Z ino disk mem) (hip : Usable Z mem ip)
    (htype : (ino (mem.inode ip).inum).type ≠ 0) :
    Stored sb D Z ino disk mem ip src off tot off [] (ino (mem.inode ip).inum) disk where
  inv := (Mapping.refl h hip htype).inv
  written := Written.of_grown Grown.refl
  blocks bn hlo hhi := by omega
  source j hj := absurd hj (Nat.not_lt_zero j)
  lo := le_rfl
  hi := Nat.le_add_right _ _

theorem trans {disk₂ : Disk} {d₂ : Dinode Addrs} {w₂ : List UInt8} {m : Nat} (hm : w.length = m)
    (h : Stored sb D Z ino disk mem ip src off tot (off + m) w d' disk')
    (h₂ : Stored sb (insert ip D) Z (update ino (mem.inode ip).inum d') disk'
      (mem.setDinode ip d') ip src (off + m) (tot + m) off' w₂ d₂ disk₂) :
    Stored sb D Z ino disk mem ip src off tot off' (w ++ w₂) d₂ disk₂ := by
  subst hm
  have hinum := (FsInv.setDinode_same mem ip ip d').2.1
  have hinv := h₂.inv
  have hwritten := h₂.written
  rw [hinum, update_idem, FsMem.setDinode_setDinode, Set.insert_idem] at hinv
  rw [hinum] at hwritten
  refine ⟨hinv, h.written.trans hwritten, ?_, ?_, ?_, ?_⟩
  · intro bn hlo hhi
    rcases Nat.lt_or_ge (bn * BSIZE) (off + w.length) with hlt | hge
    · have hm := h.blocks bn hlo hlt
      have hkeep := hwritten.keep bn
      rw [update_self] at hkeep
      rw [hkeep hm]
      exact hm
    · exact h₂.blocks bn hge hhi
  · intro j hj
    rw [length_append] at hj
    rcases Nat.lt_or_ge j w.length with hlt | hge
    · rw [getD_append _ _ _ _ hlt]
      exact h.source j hlt
    · rw [getD_append_right _ _ _ _ hge, ← h₂.source (j - w.length) (by omega)]
      congr 1
      omega
  · have := h₂.lo
    omega
  · have := h₂.hi
    rw [length_append]
    omega

/-- One round of the loop: a block for the file, and bytes stored into it. -/
theorem round (hsb : sb.Ok) (hm : Mapping sb D Z ino disk mem ip d' disk')
    (hne : mapped disk' d' (off / BSIZE) ≠ 0) (hw : off % BSIZE + w.length ≤ BSIZE)
    (hsrc : ∀ j, j < w.length → src.byte (tot + j) = some (w.getD j 0)) (hlo : off ≤ off')
    (hhi : off' ≤ off + w.length) :
    Stored sb D Z ino disk mem ip src off tot off' w d'
      (update disk' (mapped disk' d' (off / BSIZE))
      (storeBytes (disk' (mapped disk' d' (off / BSIZE))) (off % BSIZE) w)) := by
  have hself : update ino (mem.inode ip).inum d' (mem.inode ip).inum = d' := update_self ..
  have hone := hm.inv.written (i := (mem.inode ip).inum) (by rw [hself]; exact hne) hw
  rw [hself] at hone
  refine ⟨hm.inv.setData hsb hself hne, (Written.of_grown hm.grown).trans hone, ?_, hsrc, hlo, hhi⟩
  intro bn hbn hlt
  have hdm := Nat.div_add_mod off BSIZE
  rw [Nat.mul_comm] at hdm
  have hdiv : bn * BSIZE / BSIZE = off / BSIZE :=
    Nat.div_eq_of_lt_le (by omega) (by rw [Nat.succ_mul]; omega)
  rw [Nat.mul_div_cancel _ (by decide)] at hdiv
  rw [hm.inv.mapped_setData hself hne hself, hdiv]
  exact hne

end Stored

section Routines

variable {strict : Prop} {InLog : Nat → Prop} {Ends : Halt → Prop} {p : Pid}
  {inOp : Bool} {src : Src}

theorem swp_eitherCopyin {tot m : Nat} {Q : List UInt8 × Bool → Store (FsMem Addrs) → Prop}
    {s : Store (FsMem Addrs)} (hQ : Q (src.copied tot m) s) :
    swp (fsTheory strict InLog Ends) p (eitherCopyin src tot m) Q s := by
  cases src with
  | kernel bytes => exact hQ
  | user um va => exact swp_ext hQ

/-- The bytes that were copied are in the buffer, also if the copy failed. -/
theorem swp_storeCopied {α : Type} {a o : Nat} {w : List UInt8} {f : Unit → BProg α}
    {Q : α → Store (FsMem Addrs) → Prop} (hop : strict → inOp = true ∧ ¬ InLog a)
    (hk : swp (fsTheory strict InLog Ends) p (f ()) Q
      ⟨disk, ⟨inOp, [⟨a, storeBytes data o w, decide (w ≠ [])⟩]⟩, mem⟩) :
    swp (fsTheory strict InLog Ends) p
      ((if w = [] then .pure () else .op (.modify a (storeBytes data o w)) .pure) >>= f) Q
      ⟨disk, ⟨inOp, [⟨a, data, false⟩]⟩, mem⟩ := by
  by_cases hnil : w = []
  · subst hnil
    exact hk
  · rw [if_neg hnil]
    refine swp_bind (swp_modify hop (by simp) ?_)
    rw [decide_eq_true hnil] at hk
    exact hk

/-- Storing data leaves the free map as it is. -/
theorem freeBlocks_setData (hsb : sb.Ok) (h : FsInv sb ∅ D Z ino disk mem) {bn : Nat}
    (hd : ino i = d) (hm : mapped disk d bn ≠ 0) :
    sb.freeBlocks (update disk (mapped disk d bn) data) = sb.freeBlocks disk := by
  refine freeBlocks_congr fun c hc => ?_
  have := hsb.bitmap c hc
  have := (h.mapped_range hd hm).1
  exact update_of_ne (by omega) _ _

theorem swp_writeLoop (hsb : sb.Ok) (hw : Writing sb strict InLog inOp) (hsrc : src.Fits n)
    (hwhole : strict → src.Whole n) {hi : Nat} (hhi : hi ≤ MAXFILE) :
    ∀ (fuel off tot : Nat) {D : Set Slot} {ino : Nat → Dinode Addrs} {disk : Disk}
      {mem : FsMem Addrs} {Q : Nat → Store (FsMem Addrs) → Prop},
      FsInv sb ∅ D Z ino disk mem → Usable Z mem ip → (ino (mem.inode ip).inum).type ≠ 0 →
      n - tot ≤ fuel → tot ≤ n → off + (n - tot) ≤ hi * BSIZE →
      (Ends outOfBlocks ∨ (tot < n →
        needed disk (ino (mem.inode ip).inum) (off / BSIZE) hi ≤ (sb.freeBlocks disk).card)) →
      (∀ off' w d' disk', Stored sb D Z ino disk mem ip src off tot off' w d' disk' →
        w.length ≤ n - tot → (src.Ok n → off' = off + (n - tot) ∧ w.length = n - tot) →
        Q off' ⟨disk', ⟨inOp, []⟩, mem.setDinode ip d'⟩) →
      swp (fsTheory strict InLog Ends) p (writeLoop sb ip src n fuel off tot) Q
        ⟨disk, ⟨inOp, []⟩, mem⟩ := by
  have hBpos : 0 < BSIZE := by decide
  intro fuel
  induction fuel with
  | zero =>
    intro off tot D ino disk mem Q h hip htype hfuel htot _ _ hQ
    have hq :=
      hQ off [] _ _ (Stored.nil h hip htype) (Nat.zero_le _) fun _ => ⟨by omega, by simp; omega⟩
    rw [← (h.cached ip hip).2, FsMem.setDinode_self] at hq
    exact hq
  | succ fuel ih =>
    intro off tot D ino disk mem Q h hip htype hfuel htot hend hroom hQ
    unfold writeLoop
    by_cases hlt : tot < n
    · rw [if_pos hlt]
      have hdm := Nat.div_add_mod off BSIZE
      have hmod := Nat.mod_lt off hBpos
      rw [Nat.mul_comm] at hdm
      have hbn : off / BSIZE < hi := by
        rw [Nat.div_lt_iff_lt_mul hBpos]
        omega
      refine swp_bind (swp_bmap hsb h hip htype hw (lt_of_lt_of_le hbn hhi) ?_ ?_)
      · exact hroom.imp_right fun hr => le_trans (needed_one_le hbn) (hr hlt)
      · intro d₁ disk₁ hm hne hrest hind hcard
        set m := min (n - tot) (BSIZE - off % BSIZE) with hmdef
        obtain ⟨hle, hall, hbytes⟩ := Src.copied_spec hsrc (show tot + m ≤ n by omega)
        have hself : update ino (mem.inode ip).inum d₁ (mem.inode ip).inum = d₁ := update_self ..
        have hrange := hm.inv.mapped_range hself hne
        have hstart := hsb.inodestart_le hrange.1
        refine swp_bread (lt_trans hrange.2 hsb.uint) (by simp) (swp_bind (swp_eitherCopyin ?_))
        rcases hcopied : src.copied tot m with ⟨w₁, ok⟩
        rw [hcopied] at hle hall hbytes
        dsimp only at hle hall hbytes ⊢
        refine swp_storeCopied (hw.allowed hstart) ?_
        cases ok with
        | true =>
          rw [if_pos rfl]
          have hlen := hall rfl
          have hone : Stored sb D Z ino disk mem ip src off tot (off + m) w₁ d₁ _ :=
            Stored.round hsb hm hne (by omega) hbytes (Nat.le_add_right _ _) (by omega)
          refine swp_logWrite (hw.allowed hstart) (by simp) (swp_brelse (by simp) ?_)
          have hinum := (FsInv.setDinode_same mem ip ip d₁).2.1
          refine ih (off + m) (tot + m) hone.inv ?_ ?_ (by omega) (by omega) (by omega) ?_ ?_
          · exact FsInv.usable_setDinode.mpr hip
          · rw [hinum, hself, hm.grown.same]
            exact htype
          · refine hroom.imp_right fun hr hmore => ?_
            -- there is more to write, so the round went to the end of its block
            have hnext : (off + m) / BSIZE = off / BSIZE + 1 := by
              have hsum : off + m = (off / BSIZE + 1) * BSIZE := by
                rw [Nat.succ_mul]
                omega
              rw [hsum, Nat.mul_div_cancel _ hBpos]
            generalize storeBytes (disk₁ (mapped disk₁ d₁ (off / BSIZE))) (off % BSIZE) w₁ = data
            have hmap : ∀ k, mapped (update disk₁ _ data) _ k = _ :=
              hm.inv.mapped_setData hself hne hself
            have hsucc := needed_succ hbn (fun k hk => (hmap k).trans (hrest k hk)) hind
            have := hr hlt
            rw [hinum, hself, hnext, freeBlocks_setData hsb hm.inv hself hne]
            omega
          · intro off' w d' disk' hst hwlen hwall
            have hq := hQ _ _ _ _ (hone.trans hlen hst) ?_ ?_
            · rw [FsMem.setDinode_setDinode]
              exact hq
            · rw [length_append]
              omega
            · intro hsrcOk
              have := hwall hsrcOk
              rw [length_append]
              omega
        | false =>
          rw [if_neg (by simp)]
          have hfail : ¬ src.Ok n := fun hsrcOk => by
            have := hsrcOk tot m (by omega)
            rw [hcopied] at this
            cases this
          have hnone : Q off ⟨disk₁, ⟨inOp, []⟩, mem.setDinode ip d₁⟩ := by
            have hone : Stored sb D Z ino disk mem ip src off tot off [] d₁ _ :=
              Stored.round hsb hm hne (by simp; omega)
                (fun j hj => absurd hj (Nat.not_lt_zero j)) le_rfl le_rfl
            rw [storeBytes, update_eq_self] at hone
            exact hQ off [] d₁ disk₁ hone (Nat.zero_le _) fun hsrcOk => absurd hsrcOk hfail
          by_cases hnil : w₁ = []
          · subst hnil
            exact swp_brelse (by simp) hnone
          · rw [decide_eq_true hnil]
            refine swp_brelse_dirty (fun hs => hnil ?_) (by simp) ?_
            · have := hwhole hs tot m (by omega)
              rw [hcopied] at this
              exact this rfl
            · rintro disk' (rfl | rfl)
              · exact hnone
              · refine hQ off w₁ d₁ _ ?_ (by omega) fun hsrcOk => absurd hsrcOk hfail
                exact Stored.round hsb hm hne (by omega) hbytes le_rfl (Nat.le_add_right _ _)
    · rw [if_neg hlt]
      have hq :=
        hQ off [] _ _ (Stored.nil h hip htype) (Nat.zero_le _) fun _ => ⟨by omega, by simp; omega⟩
      rw [← (h.cached ip hip).2, FsMem.setDinode_self] at hq
      exact hq

/-- What `writei` does: `w` is stored from `off` on, and the file ends at `off'` if it was shorter.
After a copy that failed the two do not agree. -/
structure Wrote (ino : Nat → Dinode Addrs) (disk : Disk) (i : Nat) (src : Src) (off n off' : Nat)
    (w : List UInt8) (d' : Dinode Addrs) (disk' : Disk) : Prop where
  same : d' = { ino i with addrs := d'.addrs, size := max (ino i).size off' }
  keep : ∀ k, mapped disk (ino i) k ≠ 0 → mapped disk' d' k = mapped disk (ino i) k
  bytes : ∀ o, byteAt disk' d' o =
    if off ≤ o ∧ o < off + w.length then w.getD (o - off) 0 else byteAt disk (ino i) o
  others : ∀ j, j ≠ i → ∀ o, byteAt disk' (ino j) o = byteAt disk (ino j) o
  source : ∀ j, j < w.length → src.byte j = some (w.getD j 0)
  lo : off ≤ off'
  hi : off' ≤ off + w.length
  len : w.length ≤ n
  all : src.Ok n → off' = off + n ∧ w.length = n

/-- `writei` writes to the file or past its end, as far as a file can go. -/
def Writable (size off n : Nat) : Prop := off ≤ size ∧ off + n ≤ MAXFILE * BSIZE

instance (size off n : Nat) : Decidable (Writable size off n) := inferInstanceAs (Decidable (_ ∧ _))

theorem Stored.noHoles {w : List UInt8} {off' : Nat} (h : FsInv sb ∅ D Z ino disk mem)
    (hst : Stored sb D Z ino disk mem ip src off 0 off' w d' disk')
    (hoff : off ≤ (ino (mem.inode ip).inum).size) :
    NoHoles disk' { d' with size := max (ino (mem.inode ip).inum).size off' } := by
  intro bn hbn
  change mapped disk' d' bn ≠ 0
  rcases Nat.lt_or_ge (bn * BSIZE) (ino (mem.inode ip).inum).size with hlt | hge
  · have hm := h.holes _ bn hlt
    rw [hst.written.keep bn hm]
    exact hm
  · exact hst.blocks bn (by omega) (by simp only at hbn; omega)

/-- The end of `writei`: the size of the file. -/
theorem Stored.setSize {w : List UInt8} {off' : Nat} (h : FsInv sb ∅ D Z ino disk mem)
    (hip : Usable Z mem ip) (htype : (ino (mem.inode ip).inum).type ≠ 0)
    (hst : Stored sb D Z ino disk mem ip src off 0 off' w d' disk')
    (hoff : off ≤ (ino (mem.inode ip).inum).size) (hend : off' ≤ MAXFILE * BSIZE)
    (hd : d = { d' with size := max (ino (mem.inode ip).inum).size off' }) :
    FsInv sb ∅ (insert ip D) Z (update ino (mem.inode ip).inum d) disk' (mem.setDinode ip d) := by
  have hmax : MAXFILE * BSIZE < 2 ^ 32 := by decide
  have hinum := (FsInv.setDinode_same mem ip ip d').2.1
  have hsize := (h.fits (mem.inode ip).inum).size
  have htype' : d'.type ≠ 0 := by
    rw [hst.written.same]
    exact htype
  have hset : FsInv sb ∅ _ Z _ disk' ((mem.setDinode ip d').setDinode ip d) :=
    hst.inv.setFields (FsInv.usable_setDinode.mpr hip) (by rw [hinum, update_self]; exact htype')
      (by rw [hinum, update_self, hd])
      (by rw [hd]; exact { hst.inv.fits_self with size := by simp only; omega })
      (fun h0 => absurd (by rw [hd] at h0; exact h0) htype') (by rw [hd]; exact hst.noHoles h hoff)
  rw [hinum, update_idem, FsMem.setDinode_setDinode, Set.insert_idem] at hset
  exact hset

/-- `writei` stores the bytes, and reports success even when it could not copy them all. -/
theorem swp_writei (hsb : sb.Ok) (h : FsInv sb ∅ D Z ino disk mem) (hip : Usable Z mem ip)
    (htype : (ino (mem.inode ip).inum).type ≠ 0) (hw : Writing sb strict InLog inOp)
    (hsrc : src.Fits n) (hwhole : strict → src.Whole n) (hn : n < 2 ^ 32)
    (hroom : Ends outOfBlocks ∨ needed disk (ino (mem.inode ip).inum) (off / BSIZE)
      ((off + n + (BSIZE - 1)) / BSIZE) ≤ (sb.freeBlocks disk).card)
    {Q : Int → Store (FsMem Addrs) → Prop}
    (hbad : ¬ Writable (ino (mem.inode ip).inum).size off n → Q (-1) ⟨disk, ⟨inOp, []⟩, mem⟩)
    (hnone : n = 0 → Writable (ino (mem.inode ip).inum).size off n → Q 0 ⟨disk, ⟨inOp, []⟩, mem⟩)
    (hQ : 0 < n → Writable (ino (mem.inode ip).inum).size off n → ∀ off' w d' disk',
      FsInv sb ∅ (D \ {ip}) Z (update ino (mem.inode ip).inum d') disk' (mem.setDinode ip d') →
      Wrote ino disk (mem.inode ip).inum src off n off' w d' disk' →
      Q n ⟨disk', ⟨inOp, []⟩, mem.setDinode ip d'⟩) :
    swp (fsTheory strict InLog Ends) p (writei sb ip src off n) Q ⟨disk, ⟨inOp, []⟩, mem⟩ := by
  have hBpos : 0 < BSIZE := by decide
  have hmax : MAXFILE * BSIZE < 2 ^ 32 := by decide
  have hcached := (h.cached ip hip).2
  have hsize := (h.fits (mem.inode ip).inum).size
  refine swp_getInode ?_
  rw [hcached]
  by_cases hok : Writable (ino (mem.inode ip).inum).size off n
  · obtain ⟨hoff, hend⟩ := id hok
    have hsum : (off + n) % 2 ^ 32 = off + n := by omega
    rw [hsum, if_neg (by omega), if_neg (by omega)]
    rcases Nat.eq_zero_or_pos n with rfl | hpos
    · exact hnone rfl hok
    have hhi : (off + n + (BSIZE - 1)) / BSIZE ≤ MAXFILE := by
      rw [Nat.div_le_iff_le_mul_add_pred hBpos, Nat.mul_comm]
      omega
    have hcover : off + (n - 0) ≤ (off + n + (BSIZE - 1)) / BSIZE * BSIZE := by
      have hdm := Nat.div_add_mod (off + n + (BSIZE - 1)) BSIZE
      have := Nat.mod_lt (off + n + (BSIZE - 1)) hBpos
      rw [Nat.mul_comm] at hdm
      omega
    refine swp_bind
      (swp_writeLoop hsb hw hsrc hwhole hhi n off 0 h hip htype (by omega) (by omega) hcover
      (hroom.imp_right fun hr _ => hr) ?_)
    intro off' w d₁ disk₁ hst hlen hall
    rw [if_pos hpos]
    have hsize₁ : d₁.size = (ino (mem.inode ip).inum).size := by rw [hst.written.same]
    obtain ⟨d₂, hd₂⟩ : ∃ d₂ : Dinode Addrs, d₂ =
        { d₁ with size := max (ino (mem.inode ip).inum).size off' } :=
      ⟨_, rfl⟩
    have hinv := hst.setSize h hip htype hoff (by have := hst.hi; omega) hd₂
    have hinum := (FsInv.setDinode_same mem ip ip d₂).2.1
    have hupdate : swp (fsTheory strict InLog Ends) p (iupdate sb ip) (fun _ t => Q n t)
        ⟨disk₁, ⟨inOp, []⟩, mem.setDinode ip d₂⟩ := by
      refine swp_iupdate hsb hinv (FsInv.usable_setDinode.mpr hip) hw ?_
      intro disk₂ hinv₂ hs _
      rw [Set.insert_sdiff_of_mem D (Set.mem_singleton ip)] at hinv₂
      have hself : update ino (mem.inode ip).inum d₂ (mem.inode ip).inum = d₂ := update_self ..
      have haddrs : d₂.addrs = d₁.addrs := by rw [hd₂]
      refine hQ hpos hok off' w d₂ disk₂ hinv₂ ⟨?_, ?_, ?_, ?_, ?_, hst.lo, hst.hi, by omega, ?_⟩
      · rw [hd₂, hst.written.same]
      · intro k hk
        have hm := hs.mapped hinv (mem.inode ip).inum k
        rw [hself] at hm
        rw [hm, mapped_of_addrs haddrs]
        exact hst.written.keep k hk
      · intro o
        have hb := hs.byteAt hinv (mem.inode ip).inum o
        rw [hself] at hb
        rw [hb, byteAt_of_addrs haddrs]
        exact hst.written.bytes o
      · intro j hj o
        have hb := hs.byteAt hinv j o
        rw [update_of_ne hj] at hb
        rw [hb]
        exact hst.written.others j hj o
      · intro j hj
        have := hst.source j hj
        rwa [Nat.zero_add] at this
      · intro hsrcOk
        have := hall hsrcOk
        omega
    refine swp_bind (swp_getInode (swp_bind ?_))
    rw [FsInv.dinode_setDinode]
    by_cases hlt : d₁.size < off'
    · rw [if_pos hlt]
      refine swp_setDinode ?_
      have hset : ({ d₁ with size := off' } : Dinode Addrs) = d₂ := by
        rw [hd₂, ← hsize₁, Nat.max_eq_right (by omega)]
      rw [hset, FsMem.setDinode_setDinode]
      exact hupdate
    · rw [if_neg hlt]
      have hset : d₁ = d₂ := by
        rw [hd₂, ← hsize₁, Nat.max_eq_left (by omega)]
      rw [hset]
      exact hupdate
  · have hq := hbad hok
    rw [Writable, not_and_or, Nat.not_le, Nat.not_le] at hok
    by_cases hwrap : (ino (mem.inode ip).inum).size < off ∨ (off + n) % 2 ^ 32 < off
    · rw [if_pos hwrap]
      exact hq
    · rw [if_neg hwrap]
      rw [not_or, Nat.not_lt, Nat.not_lt] at hwrap
      have hsum : (off + n) % 2 ^ 32 = off + n := by omega
      rw [hsum, if_pos (by omega)]
      exact hq

end Routines

end Xv6
