/-
  Vm/Free.lean --- `freewalk` frees every page of a page table, once.

  While `freewalk` is at work there is no page table: an entry still points to a page
  that is free already.  So the argument is about the list of the pages below a page, as
  they were when the routine was called.  They are distinct, so what is done to the pages
  below one entry leaves those below the next as they were.
-/
import Xv6.Vm.Walk

set_option autoImplicit false

namespace Xv6.Vm

open Function List Foundation

variable {g : Nat → Role} {s s' : Phys} {mem mem' : Nat → Page} {ld : Linker}

/-! ## The pages below a page -/

/-- The page `n` and those below it, `d` levels down, in pages with the entries `idx`. -/
def subtree (idx : List Nat) (mem : Nat → Page) : Nat → Nat → List Nat
  | 0, n => [n]
  | d + 1, n => n :: idx.flatMap fun i => (child (word mem n i)).elim [] (subtree idx mem d)

variable {idx : List Nat}

/-- The pages below entry `i` of `n`. -/
def under (idx : List Nat) (mem : Nat → Page) (d n i : Nat) : List Nat :=
  (child (word mem n i)).elim [] (subtree idx mem d)

theorem subtree_succ (mem : Nat → Page) (d n : Nat) :
    subtree idx mem (d + 1) n = n :: idx.flatMap (under idx mem d n) := rfl

theorem mem_subtree_self (mem : Nat → Page) (d n : Nat) : n ∈ subtree idx mem d n := by
  cases d with
  | zero => exact mem_singleton_self n
  | succ d => exact mem_cons_self

/-- A page below an entry is below the page. -/
theorem subset_of_child {d n i c : Nat} (hi : i ∈ idx) (hc : child (word mem n i) = some c) :
    ∀ x ∈ subtree idx mem d c, x ∈ subtree idx mem (d + 1) n := by
  intro x hx
  refine mem_cons_of_mem n (mem_flatMap.mpr ⟨i, hi, ?_⟩)
  rw [hc]
  exact hx

/-- What `freewalk` needs of the entries: those of the last level are not valid, those
above it that are valid have no permissions. -/
def Doomed (idx : List Nat) (mem : Nat → Page) : Nat → Nat → Prop
  | 0, n => ∀ i ∈ idx, word mem n i &&& PTE_V = 0
  | d + 1, n => ∀ i ∈ idx, ∀ c, child (word mem n i) = some c →
      word mem n i &&& (PTE_R ||| PTE_W ||| PTE_X) = 0 ∧ Doomed idx mem d c

/-- The pages below a page are found in those pages. -/
theorem subtree_congr {d : Nat} : ∀ {n : Nat}, (∀ x ∈ subtree idx mem d n, mem' x = mem x) →
    subtree idx mem' d n = subtree idx mem d n ∧ (Doomed idx mem d n → Doomed idx mem' d n) := by
  induction d with
  | zero =>
    intro n h
    have hword : ∀ i, word mem' n i = word mem n i := fun i => by
      rw [word, word, h n (mem_subtree_self mem 0 n)]
    exact ⟨rfl, fun hdoom i hi => by rw [hword i]; exact hdoom i hi⟩
  | succ d ih =>
    intro n h
    have hword : ∀ i, word mem' n i = word mem n i := fun i => by
      rw [word, word, h n (mem_subtree_self mem (d + 1) n)]
    have hchild : ∀ i ∈ idx, ∀ c, child (word mem n i) = some c →
        subtree idx mem' d c = subtree idx mem d c ∧ (Doomed idx mem d c → Doomed idx mem' d c) :=
      fun i hi c hc => ih fun x hx => h x (subset_of_child hi hc x hx)
    constructor
    · rw [subtree_succ, subtree_succ]
      refine congrArg _ (flatMap_congr fun i hi => ?_)
      rw [under, under, hword i]
      cases hc : child (word mem n i) with
      | none => rfl
      | some c => exact (hchild i hi c hc).1
    · intro hdoom i hi c hc
      rw [hword i] at hc ⊢
      exact ⟨(hdoom i hi c hc).1, (hchild i hi c hc).2 (hdoom i hi c hc).2⟩

/-! ## `freewalk` -/

/-- The pages of `l` have been put on the free list; the others are as before. -/
structure Freed (l : List Nat) (s s' : Phys) : Prop where
  free : s'.free.Perm (l ++ s.free)
  rest : ∀ x, x ∉ l → s'.mem x = s.mem x

/-- The body of the loop. -/
def freewalkEntry (ld : Linker) (depth pagetable i : Nat) : Code Unit := do
  let pte ← load (pagetable + 8 * i)
  if pte &&& PTE_V ≠ 0 ∧ pte &&& (PTE_R ||| PTE_W ||| PTE_X) = 0 then do
    freewalk ld depth (PTE2PA pte)
    store (pagetable + 8 * i) 0
  else if pte &&& PTE_V ≠ 0 then throw "freewalk: leaf"
  else return ()

theorem freewalk_eq (depth pagetable : Nat) : freewalk ld (depth + 1) pagetable =
    (do (range 512).forM (freewalkEntry ld depth pagetable); kfree ld pagetable) := rfl

/-- The loop over some entries of `n`, given what `freewalk` does one level down. -/
theorem freewalkLoop {d n : Nat} (hstep : ∀ (c : Nat) (s : Phys), Doomed idx s.mem d c →
      (subtree idx s.mem d c).Nodup → (∀ x ∈ subtree idx s.mem d c, ld.Managed x) →
      Total (freewalk ld (d + 1) (c * PGSIZE)) (fun _ => Freed (subtree idx s.mem d c) s) s)
    (is : List Nat) :
    ∀ s : Phys, is.Nodup → (∀ i ∈ is, i < 512) → (∀ i ∈ is, ∀ c, child (word s.mem n i) = some c →
        word s.mem n i &&& (PTE_R ||| PTE_W ||| PTE_X) = 0 ∧ Doomed idx s.mem d c) →
      (n :: is.flatMap (under idx s.mem d n)).Nodup →
      (∀ x ∈ is.flatMap (under idx s.mem d n), ld.Managed x) →
      Total (is.forM (freewalkEntry ld (d + 1) (n * PGSIZE))) (fun _ s' =>
        s'.free.Perm (is.flatMap (under idx s.mem d n) ++ s.free) ∧
          ∀ x, x ≠ n → x ∉ is.flatMap (under idx s.mem d n) → s'.mem x = s.mem x) s := by
  induction is with
  | nil => exact fun s _ _ _ _ _ => Total.pure ⟨List.Perm.refl _, fun _ _ _ => rfl⟩
  | cons i is ih =>
    intro s hnodup hlt hdoom hdistinct hmanaged
    obtain ⟨hi, hnodup⟩ := nodup_cons.mp hnodup
    have hi512 := hlt i mem_cons_self
    rw [List.forM]
    refine Total.bind ?_
    rw [freewalkEntry]
    refine Total.bind (load_total hi512 ?_)
    cases hc : child (word s.mem n i) with
    | none =>
      have hV : ¬ word s.mem n i &&& PTE_V ≠ 0 := fun hV => by
        rw [child_of hV] at hc
        cases hc
      have hunder : under idx s.mem d n i = [] := by rw [under, hc]; rfl
      have hlist : (i :: is).flatMap (under idx s.mem d n) = is.flatMap (under idx s.mem d n) := by
        rw [flatMap_cons, hunder, nil_append]
      rw [hlist] at hdistinct hmanaged ⊢
      rw [if_neg fun h => hV h.1, if_neg hV]
      exact Total.pure (ih s hnodup (fun j hj => hlt j (mem_cons_of_mem i hj))
        (fun j hj => hdoom j (mem_cons_of_mem i hj)) hdistinct hmanaged)
    | some c =>
      obtain ⟨hplain, hc_doom⟩ := hdoom i mem_cons_self c hc
      have hV : word s.mem n i &&& PTE_V ≠ 0 := fun hV => by
        rw [child_eq_none hV] at hc
        cases hc
      have hunder : under idx s.mem d n i = subtree idx s.mem d c := by rw [under, hc]; rfl
      have hlist : (i :: is).flatMap (under idx s.mem d n)
          = subtree idx s.mem d c ++ is.flatMap (under idx s.mem d n) := by
        rw [flatMap_cons, hunder]
      rw [hlist] at hdistinct hmanaged ⊢
      obtain ⟨hn, hsplit⟩ := nodup_cons.mp hdistinct
      obtain ⟨hsub, hrest, hdisj⟩ := nodup_append'.mp hsplit
      rw [if_pos ⟨hV, hplain⟩]
      have hpage : PTE2PA (word s.mem n i) = c * PGSIZE := by
        rw [child_of hV] at hc
        rw [PTE2PA_page, Option.some.inj hc]
      rw [hpage]
      refine Total.seq (hstep c s hc_doom hsub fun x hx => hmanaged x (mem_append_left _ hx)) ?_
      intro _ s₁ hfreed
      refine store_total hi512 ?_
      set s₂ : Phys := { s₁ with mem := putWord s₁.mem n i 0 } with hs₂
      have hnsub : n ∉ subtree idx s.mem d c := fun h => hn (mem_append_left _ h)
      -- the pages below the other entries have not been touched
      have hsame : ∀ x, x ≠ n → x ∉ subtree idx s.mem d c → s₂.mem x = s.mem x := fun x hxn hx =>
        (update_of_ne hxn _ _).trans (hfreed.rest x hx)
      have hword : ∀ j ∈ is, word s₂.mem n j = word s.mem n j := by
        intro j hj
        have hji : j ≠ i := fun h => hi (h ▸ hj)
        rw [hs₂, word_putWord_ne (Or.inr hji), word, word, hfreed.rest n hnsub]
      have hchild : ∀ j ∈ is, ∀ c', child (word s.mem n j) = some c' →
          subtree idx s₂.mem d c' = subtree idx s.mem d c' ∧
            (Doomed idx s.mem d c' → Doomed idx s₂.mem d c') := by
        intro j hj c' hc'
        refine subtree_congr fun x hx => ?_
        have hmem : x ∈ is.flatMap (under idx s.mem d n) :=
          mem_flatMap.mpr ⟨j, hj, by rw [under, hc']; exact hx⟩
        refine hsame x ?_ fun hxc => hdisj hxc hmem
        rintro rfl
        exact hn (mem_append_right _ hmem)
      have hunders : is.flatMap (under idx s₂.mem d n) = is.flatMap (under idx s.mem d n) := by
        refine flatMap_congr fun j hj => ?_
        rw [under, under, hword j hj]
        cases hc' : child (word s.mem n j) with
        | none => rfl
        | some c' => exact (hchild j hj c' hc').1
      have hthen := ih s₂ hnodup (fun j hj => hlt j (mem_cons_of_mem i hj)) ?_ ?_ ?_
      · refine hthen.mono ?_
        rintro _ s₃ ⟨hperm, hrest₃⟩
        rw [hunders] at hperm hrest₃
        constructor
        · have happend := (hfreed.free.append_left (is.flatMap (under idx s.mem d n)))
          refine hperm.trans (happend.trans ?_)
          rw [← append_assoc]
          exact perm_append_comm.append_right _
        · intro x hxn hx
          rw [hrest₃ x hxn fun h => hx (mem_append_right _ h)]
          exact hsame x hxn fun h => hx (mem_append_left _ h)
      · intro j hj c' hc'
        rw [hword j hj] at hc' ⊢
        obtain ⟨hplain', hdoom'⟩ := hdoom j (mem_cons_of_mem i hj) c' hc'
        exact ⟨hplain', (hchild j hj c' hc').2 hdoom'⟩
      · rw [hunders]
        exact nodup_cons.mpr ⟨fun h => hn (mem_append_right _ h), hrest⟩
      · rw [hunders]
        exact fun x hx => hmanaged x (mem_append_right _ hx)

/-- After the loop the page itself is freed. -/
theorem Freed.last {l : List Nat} {n : Nat} {s s₁ : Phys} (hperm : s₁.free.Perm (l ++ s.free))
    (hrest : ∀ x, x ≠ n → x ∉ l → s₁.mem x = s.mem x) :
    Freed (n :: l) s { s₁ with mem := update s₁.mem n fun _ => 1, free := n :: s₁.free } := by
  refine ⟨hperm.cons n, fun x hx => ?_⟩
  have hxn : x ≠ n := fun h => hx (h ▸ mem_cons_self)
  exact (update_of_ne hxn _ _).trans (hrest x hxn fun h => hx (mem_cons_of_mem n h))

/-- `freewalk` frees the page and all pages below it. -/
theorem freewalk_freed (hidx : idx = range 512) (d : Nat) :
    ∀ (n : Nat) (s : Phys), Doomed idx s.mem d n →
    (subtree idx s.mem d n).Nodup → (∀ x ∈ subtree idx s.mem d n, ld.Managed x) →
    Total (freewalk ld (d + 1) (n * PGSIZE)) (fun _ => Freed (subtree idx s.mem d n) s) s := by
  induction d with
  | zero =>
    intro n s hdoom hnodup hmanaged
    have hloop : ∀ is : List Nat, (∀ i ∈ is, i ∈ idx) →
        Total (is.forM (freewalkEntry ld 0 (n * PGSIZE))) (fun _ s' => s' = s) s := by
      intro is
      induction is with
      | nil => exact fun _ => Total.pure rfl
      | cons i is ih =>
        intro hlt
        have hi := hlt i mem_cons_self
        have hi512 : i < 512 := mem_range.mp (hidx ▸ hi)
        rw [List.forM]
        refine Total.bind ?_
        rw [freewalkEntry]
        refine Total.bind (load_total hi512 ?_)
        have hV := hdoom i hi
        rw [if_neg fun h => h.1 hV, if_neg (not_not.mpr hV)]
        exact Total.pure (ih fun j hj => hlt j (mem_cons_of_mem i hj))
    rw [freewalk_eq, ← hidx]
    refine Total.seq (hloop idx fun _ hi => hi) ?_
    rintro _ s₁ rfl
    refine kfree_total (hmanaged n (mem_subtree_self _ _ _)) ?_
    exact Freed.last (l := []) (List.Perm.refl _) fun _ _ _ => rfl
  | succ d ih =>
    intro n s hdoom hnodup hmanaged
    rw [freewalk_eq, ← hidx]
    have hlt : ∀ i ∈ idx, i < 512 := fun i hi => mem_range.mp (hidx ▸ hi)
    refine Total.seq (freewalkLoop ih idx s (hidx ▸ nodup_range) hlt hdoom hnodup
      fun x hx => hmanaged x (mem_cons_of_mem n hx)) ?_
    rintro _ s₁ ⟨hperm, hrest⟩
    exact kfree_total (hmanaged n (mem_subtree_self _ _ _)) (Freed.last hperm hrest)

/-! ## The pages of a table -/

/-- A page has 512 entries. -/
theorem word_out {n i : Nat} (hi : 512 ≤ i) : word mem n i = 0 := by
  have hzero : ∀ w off, PGSIZE ≤ off → getLE (mem n) w off = 0 := by
    intro w
    induction w with
    | zero => exact fun _ _ => rfl
    | succ w ih =>
      intro off hoff
      rw [getLE, getByte, dif_neg (by omega), ih (off + 1) (by omega)]
      rfl
  have hpage : PGSIZE = 4096 := rfl
  exact hzero 8 (8 * i) (by omega)

/-- The pages below a page are those that paths lead to. -/
theorem mem_subtree {d : Nat} : ∀ {n x : Nat},
    x ∈ subtree idx mem d n ↔ ∃ p, p.length ≤ d ∧ (∀ i ∈ p, i ∈ idx) ∧ node mem p n = some x := by
  induction d with
  | zero =>
    intro n x
    constructor
    · intro hx
      obtain rfl := mem_singleton.mp hx
      exact ⟨[], le_rfl, by simp, rfl⟩
    · rintro ⟨p, hp, -, hx⟩
      obtain rfl := length_eq_zero_iff.mp (Nat.le_zero.mp hp)
      exact mem_singleton.mpr (Option.some.inj hx).symm
  | succ d ih =>
    intro n x
    rw [subtree_succ, mem_cons, mem_flatMap]
    constructor
    · rintro (rfl | ⟨i, hi, hx⟩)
      · exact ⟨[], by simp, by simp, rfl⟩
      · rw [under] at hx
        cases hc : child (word mem n i) with
        | none =>
          rw [hc] at hx
          cases hx
        | some c =>
          rw [hc] at hx
          obtain ⟨p, hp, hall, hnode⟩ := ih.mp hx
          refine ⟨i :: p, Nat.succ_le_succ hp, ?_, ?_⟩
          · intro j hj
            rcases mem_cons.mp hj with rfl | hj
            · exact hi
            · exact hall j hj
          · rw [node, descend, hc]
            exact hnode
    · rintro ⟨p, hp, hall, hx⟩
      cases p with
      | nil => exact Or.inl (Option.some.inj hx).symm
      | cons i p =>
        rw [node, descend] at hx
        obtain ⟨c, hc, hx⟩ := Option.bind_eq_some_iff.mp hx
        refine Or.inr ⟨i, hall i mem_cons_self, ?_⟩
        rw [under, hc]
        exact ih.mpr ⟨p, Nat.le_of_succ_le_succ hp, fun j hj => hall j (mem_cons_of_mem i hj), hx⟩

/-- Where no two paths lead to one page, the list has no duplicates. -/
theorem subtree_nodup (hnodup : idx.Nodup) {d : Nat} : ∀ {n : Nat},
    (∀ p q x, p.length ≤ d → q.length ≤ d → node mem p n = some x → node mem q n = some x →
      p = q) → (subtree idx mem d n).Nodup := by
  induction d with
  | zero => exact fun _ => nodup_singleton _
  | succ d ih =>
    intro n hdist
    -- a page below entry `i` is at a path that starts with `i`
    have hpath : ∀ i x, x ∈ under idx mem d n i →
        ∃ p, (i :: p).length ≤ d + 1 ∧ node mem (i :: p) n = some x := by
      intro i x hx
      rw [under] at hx
      cases hc : child (word mem n i) with
      | none =>
        rw [hc] at hx
        cases hx
      | some c =>
        rw [hc] at hx
        obtain ⟨p, hp, -, hnode⟩ := mem_subtree.mp hx
        refine ⟨p, Nat.succ_le_succ hp, ?_⟩
        rw [node, descend, hc]
        exact hnode
    rw [subtree_succ, nodup_cons, nodup_flatMap]
    refine ⟨fun hn => ?_, fun i _ => ?_, hnodup.imp fun {i j} hij x hxi hxj => ?_⟩
    · obtain ⟨i, -, hi⟩ := mem_flatMap.mp hn
      obtain ⟨p, hp, hnode⟩ := hpath i n hi
      cases hdist [] (i :: p) n (by simp) hp rfl hnode
    · rw [under]
      cases hc : child (word mem n i) with
      | none => exact nodup_nil
      | some c =>
        refine ih fun p q x hp hq hpx hqx => ?_
        have hcons : ∀ p, node mem (i :: p) n = node mem p c := fun p => by
          rw [node, descend, hc]
          rfl
        have heq := hdist (i :: p) (i :: q) x (Nat.succ_le_succ hp) (Nat.succ_le_succ hq)
          ((hcons p).trans hpx) ((hcons q).trans hqx)
        exact (cons.inj heq).2
    · obtain ⟨p, hp, hpx⟩ := hpath i x hxi
      obtain ⟨q, hq, hqx⟩ := hpath j x hxj
      exact hij (cons.inj (hdist _ _ x hp hq hpx hqx)).1

/-- The roles after the pages of the table with root `r` were freed. -/
def cleared (g : Nat → Role) (r n : Nat) : Role :=
  match g n with
  | .node r' p => if r' = r then .free else .node r' p
  | ρ => ρ

theorem cleared_node {r n : Nat} {p : List Nat} (hn : g n = .node r p) : cleared g r n = .free := by
  rw [cleared, hn]
  exact if_pos rfl

theorem cleared_of_ne {r n : Nat} (hn : ∀ p, g n ≠ .node r p) : cleared g r n = g n := by
  rw [cleared]
  split
  · rename_i r' p hp
    rw [hp, if_neg]
    rintro rfl
    exact hn p hp
  · rfl

theorem Freed.tables {r : Nat} {l : List Nat} (h : Tables g s) (hfreed : Freed l s s')
    (hnodup : l.Nodup) (hl : ∀ x, x ∈ l ↔ ∃ p, g x = .node r p) (hsmall : ∀ x ∈ l, x < 2 ^ 52) :
    Tables (cleared g r) s' ∧ Change (InTable r) g (cleared g r) s s' := by
  have hother : ∀ x, x ∉ l → cleared g r x = g x := fun x hx =>
    cleared_of_ne fun p hp => hx ((hl x).mpr ⟨p, hp⟩)
  have hgone : ∀ x, x ∈ l → cleared g r x = .free := fun x hx => by
    obtain ⟨p, hp⟩ := (hl x).mp hx
    exact cleared_node hp
  have hmem : ∀ x, x ∈ s'.free ↔ x ∈ l ∨ x ∈ s.free := fun x => by
    rw [hfreed.free.mem_iff, mem_append]
  -- the other tables are where they were
  have hforeign : ∀ r', r' ≠ r → ∀ x p, g x = .node r' p → x ∉ l := by
    rintro r' hr' x p hx hxl
    obtain ⟨q, hq⟩ := (hl x).mp hxl
    exact hr' (Role.node.inj (hx.symm.trans hq)).1
  have hrole : ∀ x r' p, r' ≠ r → (cleared g r x = .node r' p ↔ g x = .node r' p) := by
    intro x r' p hr'
    by_cases hx : x ∈ l
    · rw [hgone x hx]
      exact iff_of_false (by simp) fun hg => hforeign r' hr' x p hg hx
    · rw [hother x hx]
  have hnone : ∀ x p, cleared g r x ≠ .node r p := by
    intro x p hx
    by_cases hxl : x ∈ l
    · rw [hgone x hxl] at hx
      cases hx
    · rw [hother x hxl] at hx
      exact hxl ((hl x).mpr ⟨p, hx⟩)
  refine ⟨⟨?_, fun x => ?_, fun x hx => ?_, fun x r' p => ?_⟩, fun x hx => ?_, fun x hx => ?_⟩
  · rw [hfreed.free.nodup_iff, nodup_append']
    refine ⟨hnodup, h.nodup, fun x hx hfree => ?_⟩
    obtain ⟨p, hp⟩ := (hl x).mp hx
    cases hp.symm.trans ((h.free x).mp hfree)
  · rw [hmem x, h.free x]
    by_cases hx : x ∈ l
    · exact iff_of_true (Or.inl hx) (hgone x hx)
    · rw [hother x hx]
      exact or_iff_right hx
  · rcases (hmem x).mp hx with hx | hx
    · exact hsmall x hx
    · exact h.small x hx
  · by_cases hr' : r' = r
    · subst hr'
      exact iff_of_false (hnone x p) fun hroot => hnone r' [] hroot.2.1
    · rw [hrole x r' p hr', hrole r' r' [] hr', h.node]
      refine and_congr_right fun hp => and_congr_right fun hg => ?_
      have hword : ∀ y q j, g y = .node r' q → word s'.mem y j = word s.mem y j := by
        intro y q j hy
        rw [word, word, hfreed.rest y (hforeign r' hr' y q hy)]
      rw [h.node_congr hg (fun y q j hy _ => hword y q j hy) hp]
  · have hxl : x ∉ l := fun hxl => hx (Or.inr ((hl x).mp hxl))
    exact ⟨hother x hxl, hfreed.rest x hxl⟩
  · by_cases hxl : x ∈ l
    · exact Or.inl (hgone x hxl)
    · rw [hother x hxl]
      exact hx

/-- The entries of a table that maps nothing. -/
theorem doomed_of_none {r : Nat} (h : Tables g s) (hinner : Inner g s.mem r)
    (hnone : ∀ v, mapping s.mem r v = none) (hidx : idx = range 512) :
    ∀ (d : Nat) (p : List Nat) (n : Nat), p.length + d = 2 → (∀ i ∈ p, i < 512) →
      g n = .node r p → Doomed idx s.mem d n := by
  intro d
  induction d with
  | zero =>
    intro p n hp hlt hn k hk
    rw [hidx, mem_range] at hk
    -- the page number with these three indices
    obtain ⟨i, j, rfl⟩ := length_eq_two.mp hp
    have hi := hlt i (by simp)
    have hj := hlt j (by simp)
    obtain ⟨v, hv⟩ : ∃ v, v = i * 2 ^ 18 + j * 2 ^ 9 + k := ⟨_, rfl⟩
    have hvpn : v < NVPN := by
      rw [show NVPN = 134217728 from rfl]
      omega
    have hup : upper v = [i, j] := by
      rw [upper, show v / 2 ^ 18 % 512 = i by omega, show v / 2 ^ 9 % 512 = j by omega]
    have hlow : v % 512 = k := by omega
    have hmap := mapping_of_entry h hvpn (hup ▸ hn)
    rw [hnone v, hlow] at hmap
    by_contra hV
    rw [if_pos hV] at hmap
    cases hmap
  | succ d ih =>
    intro p n hp hlt hn i hi c hc
    have hV : word s.mem n i &&& PTE_V ≠ 0 := fun hV => by
      rw [child_eq_none hV] at hc
      cases hc
    refine ⟨hinner n p i hn (by omega) hV, ih (p ++ [i]) c ?_ ?_ ?_⟩
    · rw [length_append, length_singleton]
      omega
    · intro j hj
      rcases mem_append.mp hj with hj | hj
      · exact hlt j hj
      · rw [mem_singleton.mp hj]
        exact mem_range.mp (hidx ▸ hi)
    · refine h.role_of (h.root_of hn) ?_ ?_
      · rw [length_append, length_singleton]
        omega
      · rw [node, descend_snoc, show descend child (word s.mem) p r = some n from h.node_of hn]
        exact hc

/-- `freewalk` frees the pages of a table that maps nothing. -/
theorem freewalk_total {r : Nat} (h : Tables g s) (hr : g r = .node r [])
    (hinner : Inner g s.mem r) (hnone : ∀ v, mapping s.mem r v = none)
    (hmanaged : ∀ n p, g n = .node r p → ld.Managed n) :
    Total (freewalk ld 3 (r * PGSIZE)) (fun _ s' =>
      Tables (cleared g r) s' ∧ Change (InTable r) g (cleared g r) s s') s := by
  obtain ⟨idx, hidx⟩ : ∃ idx, idx = range 512 := ⟨_, rfl⟩
  have hmem512 : ∀ i < 512, i ∈ idx := fun i hi => by
    rw [hidx]
    exact mem_range.mpr hi
  have hl : ∀ x, x ∈ subtree idx s.mem 2 r ↔ ∃ p, g x = .node r p := by
    intro x
    rw [mem_subtree]
    constructor
    · rintro ⟨p, hp, -, hx⟩
      exact ⟨p, h.role_of hr hp hx⟩
    · rintro ⟨p, hx⟩
      obtain ⟨hp, -, hnode⟩ := (h.node x r p).mp hx
      refine ⟨p, hp, fun i hi => hmem512 i ?_, hnode⟩
      -- an index past the end of a page leads nowhere
      by_contra hout
      obtain ⟨q, t, rfl⟩ := append_of_mem hi
      rw [node, descend_append] at hnode
      obtain ⟨y, -, hy⟩ := Option.bind_eq_some_iff.mp hnode
      rw [descend, word_out (by omega), child_zero] at hy
      cases hy
  have hnodup : (subtree idx s.mem 2 r).Nodup := by
    refine subtree_nodup (hidx ▸ nodup_range) fun p q x hp hq hpx hqx => ?_
    exact (Role.node.inj ((h.role_of hr hp hpx).symm.trans (h.role_of hr hq hqx))).2
  have hall : ∀ x ∈ subtree idx s.mem 2 r, ld.Managed x := fun x hx => by
    obtain ⟨p, hp⟩ := (hl x).mp hx
    exact hmanaged x p hp
  have hdoom := doomed_of_none h hinner hnone hidx 2 [] r rfl (by simp) hr
  refine (freewalk_freed hidx 2 r s hdoom hnodup hall).mono fun _ s' hfreed => ?_
  exact hfreed.tables h hnodup hl fun x hx => (hall x hx).small

end Xv6.Vm
