import Obsd.PfSack

/-!
# The edges that are rewritten

The walk finds the same options whether or not those before have been
rewritten, so the edges can be told from the options as they come
(`edges`). They do not overlap: each is rewritten once, and no other byte is
(`foldl_edges`, `sackLoop_eq`).
-/

namespace Obsd.PfSack

open PfCksum (Word pfChangeA)
open PfLb (htonl)

variable {be : Bool} {m m' : Buf} {p q k : Nat} {seqdiff v : BitVec 32}

/-! ## Loads and stores -/

theorem load_toNat (be : Bool) (m : Buf) (p : Nat) : (load be m p).toNat =
    (m p).toNat * place be 0 + (m (p + 1)).toNat * place be 1 + (m (p + 2)).toNat * place be 2
      + (m (p + 3)).toNat * place be 3 := by
  have h0 := (m p).toNat_lt
  have h1 := (m (p + 1)).toNat_lt
  have h2 := (m (p + 2)).toNat_lt
  have h3 := (m (p + 3)).toNat_lt
  refine Nat.mod_eq_of_lt ?_
  cases be
  · simp only [place, Bool.false_eq_true, if_false]
    omega
  · simp only [place, if_true]
    omega

theorem load_congr (h : ∀ k, p ≤ k → k < p + 4 → m' k = m k) : load be m' p = load be m p := by
  rw [load, load, h p (by omega) (by omega), h (p + 1) (by omega) (by omega),
    h (p + 2) (by omega) (by omega), h (p + 3) (by omega) (by omega)]

theorem store_of_outside (h : k < p ∨ p + 4 ≤ k) : store be m p v k = m k := by
  rw [store, if_neg (by omega)]

theorem store_byte {i : Nat} (hi : i < 4) :
    (store be m p v (p + i)).toNat = v.toNat / place be i % 256 := by
  rw [store, if_pos (by omega), Nat.add_sub_cancel_left, UInt8.toNat_ofNat']

theorem load_store (be : Bool) (m : Buf) (p : Nat) (v : BitVec 32) :
    load be (store be m p v) p = v := by
  have h0 : (store be m p v p).toNat = v.toNat / place be 0 % 256 :=
    store_byte (Nat.zero_lt_succ 3)
  refine BitVec.eq_of_toNat_eq ?_
  rw [load_toNat, h0, store_byte (by decide), store_byte (by decide), store_byte (by decide)]
  cases be
  · simp only [place, Bool.false_eq_true, if_false]
    omega
  · simp only [place, if_true]
    omega

theorem load_store_of_disjoint (h : p + 4 ≤ q ∨ q + 4 ≤ p) :
    load be (store be m p v) q = load be m q :=
  load_congr fun k hlo hhi => store_of_outside (by omega)

/-! ## One edge after the other -/

/-- What becomes of an edge, as the host has it. -/
def moved (be : Bool) (seqdiff a : BitVec 32) : BitVec 32 :=
  htonl be (htonl be a - seqdiff)

def edgeStep (be : Bool) (seqdiff : BitVec 32) (s : Buf × Word) (p : Nat) : Buf × Word :=
  let r := changeEdge be seqdiff (load be s.1 p) s.2
  (store be s.1 p r.1, r.2)

theorem edgeStep_fst (s : Buf × Word) :
    (edgeStep be seqdiff s p).1 = store be s.1 p (moved be seqdiff (load be s.1 p)) := rfl

theorem changeBlock_eq (s : Buf × Word) (p : Nat) :
    changeBlock be seqdiff s p = [p, p + 4].foldl (edgeStep be seqdiff) s := by
  have hload : load be (store be s.1 p (changeEdge be seqdiff (load be s.1 p) s.2).1) (p + 4)
      = load be s.1 (p + 4) := load_store_of_disjoint (by omega)
  simp only [changeBlock, List.foldl_cons, List.foldl_nil, edgeStep, hload]

theorem foldl_changeBlock (l : List Nat) (s : Buf × Word) :
    l.foldl (changeBlock be seqdiff) s
      = (l.flatMap fun p => [p, p + 4]).foldl (edgeStep be seqdiff) s := by
  induction l generalizing s with
  | nil => rw [List.flatMap_nil, List.foldl_nil, List.foldl_nil]
  | cons p l ih => rw [List.foldl_cons, ih, changeBlock_eq, List.flatMap_cons, List.foldl_append]

/-- Edges that do not overlap, from left to right. -/
def Gapped (l : List Nat) : Prop := l.Pairwise fun p q => p + 4 ≤ q

theorem foldl_frame {l : List Nat} (h : ∀ p ∈ l, k < p ∨ p + 4 ≤ k) (s : Buf × Word) :
    (l.foldl (edgeStep be seqdiff) s).1 k = s.1 k := by
  induction l generalizing s with
  | nil => rfl
  | cons p l ih =>
    rw [List.foldl_cons, ih (fun q hq => h q (List.mem_cons_of_mem p hq)), edgeStep_fst]
    exact store_of_outside (h p List.mem_cons_self)

/-- Each edge is moved once. -/
theorem foldl_edges {l : List Nat} (hl : Gapped l) (s : Buf × Word) (hp : p ∈ l) :
    load be (l.foldl (edgeStep be seqdiff) s).1 p = moved be seqdiff (load be s.1 p) := by
  induction l generalizing s with
  | nil => exact absurd hp List.not_mem_nil
  | cons q l ih =>
    obtain ⟨hq, hl⟩ := List.pairwise_cons.mp hl
    rw [List.foldl_cons]
    rcases List.mem_cons.mp hp with rfl | hp
    · have hframe : load be (l.foldl (edgeStep be seqdiff) (edgeStep be seqdiff s p)).1 p
          = load be (edgeStep be seqdiff s p).1 p :=
        load_congr fun k hlo hhi => foldl_frame (fun r hr => by have := hq r hr; omega) _
      rw [hframe, edgeStep_fst, load_store]
    · rw [ih hl _ hp, edgeStep_fst, load_store_of_disjoint (.inl (hq p hp))]

/-! ## Where they are -/

/-- The edges of an option. -/
def blockEdges (pos olen : Nat) : List Nat := (blocks pos olen).flatMap fun p => [p, p + 4]

theorem mem_blocks {pos olen : Nat} (h : p ∈ blocks pos olen) :
    pos + 2 ≤ p ∧ p + 8 ≤ pos + olen := by
  obtain ⟨j, hj, rfl⟩ := List.mem_map.mp h
  have hj := List.mem_range.mp hj
  unfold tcpolenSack at *
  omega

theorem mem_blockEdges {pos olen : Nat} (h : p ∈ blockEdges pos olen) :
    pos + 2 ≤ p ∧ p + 4 ≤ pos + olen := by
  obtain ⟨b, hb, hp⟩ := List.mem_flatMap.mp h
  have := mem_blocks hb
  rcases List.mem_pair.mp hp with rfl | rfl
  · omega
  · omega

theorem gapped_blockEdges (pos olen : Nat) : Gapped (blockEdges pos olen) := by
  refine List.pairwise_flatMap.mpr ⟨fun p _ => by simp, List.pairwise_map.mpr ?_⟩
  refine List.pairwise_lt_range.imp fun hij x hx y hy => ?_
  unfold tcpolenSack at *
  rcases List.mem_pair.mp hx with rfl | rfl <;> rcases List.mem_pair.mp hy with rfl | rfl <;> omega

/-- The edges that the walk comes to. -/
def edges : Nat → Buf → Nat → Nat → List Nat
  | 0, _, _, _ => []
  | fuel + 1, m, pos, hlen =>
    if hlen < tcpolenSacklen then []
    else
      let o := optLen m pos hlen
      (if o.2 then blockEdges pos o.1 else []) ++ edges fuel m (pos + o.1) (hlen - o.1)

theorem optLen_pos (m : Buf) (pos hlen : Nat) : 0 < (optLen m pos hlen).1 := by
  unfold optLen
  dsimp only
  split
  · exact Nat.one_pos
  · split
    · split <;> dsimp only <;> split <;> omega
    · split <;> dsimp only <;> omega

theorem optLen_sack {pos hlen : Nat} (h : (optLen m pos hlen).2 = true) :
    (optLen m pos hlen).1 ≤ hlen := by
  unfold optLen tcpolenSacklen tcpolenSack at *
  dsimp only at *
  split at h
  · exact absurd h Bool.false_ne_true
  · rename_i hnop
    rw [if_neg hnop]
    split at h
    · rename_i hsack
      rw [if_pos hsack]
      have h10 := of_decide_eq_true h
      have hle : (if (m (pos + 1)).toNat > hlen then hlen else (m (pos + 1)).toNat) ≤ hlen := by
        split
        · exact le_rfl
        · omega
      rwa [if_neg (by omega)]
    · exact absurd h Bool.false_ne_true

theorem mem_edges {fuel pos hlen : Nat} (h : p ∈ edges fuel m pos hlen) :
    pos + 2 ≤ p ∧ p + 4 ≤ pos + hlen := by
  induction fuel generalizing pos hlen with
  | zero => exact absurd h List.not_mem_nil
  | succ fuel ih =>
    unfold edges at h
    split at h
    · exact absurd h List.not_mem_nil
    · rename_i hlen10
      rcases List.mem_append.mp h with h | h
      · split at h
        · rename_i hsack
          have := mem_blockEdges h
          have := optLen_sack hsack
          omega
        · exact absurd h List.not_mem_nil
      · have := ih h
        omega

theorem gapped_edges (fuel : Nat) (m : Buf) (pos hlen : Nat) : Gapped (edges fuel m pos hlen) := by
  induction fuel generalizing pos hlen with
  | zero => exact List.Pairwise.nil
  | succ fuel ih =>
    unfold edges
    split
    · exact List.Pairwise.nil
    · refine List.pairwise_append.mpr ⟨?_, ih _ _, fun p hp q hq => ?_⟩
      · split
        · exact gapped_blockEdges _ _
        · exact List.Pairwise.nil
      · have := mem_edges hq
        split at hp
        · have := mem_blockEdges hp
          omega
        · exact absurd hp List.not_mem_nil

/-- The walk does not look back. -/
theorem edges_congr {fuel pos hlen : Nat} (h : ∀ k, pos ≤ k → m' k = m k) :
    edges fuel m' pos hlen = edges fuel m pos hlen := by
  induction fuel generalizing pos hlen with
  | zero => rfl
  | succ fuel ih =>
    have hopt : optLen m' pos hlen = optLen m pos hlen := by
      unfold optLen
      rw [h pos le_rfl, h (pos + 1) (Nat.le_succ _)]
    simp only [edges, hopt]
    rw [ih fun k hk => h k (by omega)]

/-- What the loop does is to move these edges. -/
theorem sackLoop_eq (fuel : Nat) (s : Walk) :
    ((sackLoop be seqdiff fuel s).opts, (sackLoop be seqdiff fuel s).sum)
      = (edges fuel s.opts s.pos s.hlen).foldl (edgeStep be seqdiff) (s.opts, s.sum) := by
  induction fuel generalizing s with
  | zero => rfl
  | succ fuel ih =>
    by_cases hlen : s.hlen < tcpolenSacklen
    · simp only [sackLoop, edges, hlen, if_true, List.foldl_nil]
    · simp only [sackLoop, edges, hlen, if_false]
      rw [ih, List.foldl_append]
      by_cases hsack : (optLen s.opts s.pos s.hlen).2 = true
      · simp only [hsack, if_true]
        rw [foldl_changeBlock]
        congr 1
        refine edges_congr fun k hk => foldl_frame (fun p hp => ?_) _
        have := mem_blockEdges hp
        omega
      · simp only [hsack, Bool.false_eq_true, if_false, List.foldl_nil]

/-- The fuel is enough if it is the length. -/
theorem sackLoop_ends {fuel : Nat} {s : Walk} (h : s.hlen ≤ fuel) :
    (sackLoop be seqdiff fuel s).hlen < tcpolenSacklen := by
  induction fuel generalizing s with
  | zero =>
    rw [sackLoop, Nat.le_zero.mp h]
    decide
  | succ fuel ih =>
    rw [sackLoop]
    split
    · assumption
    · have hpos := optLen_pos s.opts s.pos s.hlen
      have hless : s.hlen - (optLen s.opts s.pos s.hlen).1 ≤ fuel := by omega
      exact ih hless

/-- Without a SACK option nothing has to be put back. -/
theorem sackLoop_copyback (fuel : Nat) (s : Walk) (h : (sackLoop be seqdiff fuel s).copyback = false) :
    edges fuel s.opts s.pos s.hlen = [] := by
  have hmono : ∀ fuel (s : Walk), s.copyback = true →
      (sackLoop be seqdiff fuel s).copyback = true := by
    intro fuel
    induction fuel with
    | zero => exact fun s hs => hs
    | succ fuel ih =>
      intro s hs
      rw [sackLoop]
      split
      · exact hs
      · exact ih _ (by simp [hs])
  induction fuel generalizing s with
  | zero => rfl
  | succ fuel ih =>
    by_cases hlen : s.hlen < tcpolenSacklen
    · simp only [edges, hlen, if_true]
    · simp only [sackLoop, hlen, if_false] at h
      simp only [edges, hlen, if_false]
      by_cases hsack : (optLen s.opts s.pos s.hlen).2 = true
      · rw [hmono _ _ (by simp [hsack])] at h
        exact absurd h (by simp)
      · simp only [hsack, Bool.false_eq_true, if_false] at h ⊢
        exact ih _ h

end Obsd.PfSack
