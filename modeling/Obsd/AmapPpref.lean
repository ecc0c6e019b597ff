import Obsd.AmapSlots

/-!
# Reference counts in runs

What the array of per-page reference counts says: it is cut into chunks, a
chunk of one slot holds its count plus one, a longer one the negative of
that and then its length. `Coded a g p e` is that from `p` to `e` the array
is so cut and says what `g` says. Only the first two places of a chunk are
read or written, so chunks do not interfere.
-/

namespace Obsd.Amap

variable {a a' : Nat → Int} {g g' : Nat → Int} {p q e len : Nat} {ref : Int}

/-! ## Chunks -/

/-- There is a chunk of a length and a count at a place. -/
def IsChunk (a : Nat → Int) (p : Nat) (ref : Int) (len : Nat) : Prop :=
  if len = 1 then a p = ref + 1 else a p = -(ref + 1) ∧ a (p + 1) = len

theorem IsChunk.getreflen (h : IsChunk a p ref len) (href : 0 ≤ ref) : ppGetreflen a p = (ref, (len : Int)) := by
  rw [IsChunk] at h
  split at h
  · rename_i hlen
    rw [ppGetreflen, if_pos (by omega), h, hlen]
    congr 1
    omega
  · rw [ppGetreflen, if_neg (by omega), h.1, h.2]
    congr 1
    omega

theorem IsChunk.congr (h : IsChunk a p ref len) (hlen : 1 ≤ len)
    (ha : ∀ i, p ≤ i → i < p + len → a' i = a i) : IsChunk a' p ref len := by
  rw [IsChunk] at h ⊢
  split
  · rename_i hone
    rw [if_pos hone] at h
    rw [ha p (by omega) (by omega)]
    exact h
  · rename_i hone
    rw [if_neg hone] at h
    rw [ha p (by omega) (by omega), ha (p + 1) (by omega) (by omega)]
    exact h

theorem setreflen_chunk (a : Nat → Int) (p : Nat) (ref : Int) (len : Nat) :
    IsChunk (ppSetreflen a p ref len) p ref len := by
  rw [IsChunk, ppSetreflen]
  by_cases hone : len = 1
  · rw [if_pos hone, if_pos (by omega), Function.update_self]
  · rw [if_neg hone, if_neg (by omega), Function.update_of_ne (by omega), Function.update_self,
      Function.update_self]
    exact ⟨rfl, rfl⟩

theorem setreflen_frame (a : Nat → Int) (p : Nat) (ref : Int) {i : Nat} (hlen : 1 ≤ len)
    (hi : i < p ∨ p + len ≤ i) : ppSetreflen a p ref len i = a i := by
  rw [ppSetreflen]
  split
  · exact Function.update_of_ne (by omega) _ _
  · rw [Function.update_of_ne (by omega), Function.update_of_ne (by omega)]

/-! ## Arrays -/

inductive Coded (a : Nat → Int) (g : Nat → Int) : Nat → Nat → Prop where
  | done (p : Nat) : Coded a g p p
  | chunk {p e : Nat} (len : Nat) (hlen : 1 ≤ len) (hchunk : IsChunk a p (g p) len) (href : 0 ≤ g p)
    (hconst : ∀ i, p ≤ i → i < p + len → g i = g p) (rest : Coded a g (p + len) e) : Coded a g p e

theorem Coded.le (h : Coded a g p e) : p ≤ e := by
  induction h with
  | done p => exact Nat.le_refl p
  | chunk len hlen _ _ _ _ ih => omega

/-- Only what is between the ends matters. -/
theorem Coded.congr (h : Coded a g p e) (ha : ∀ i, p ≤ i → i < e → a' i = a i)
    (hg : ∀ i, p ≤ i → i < e → g' i = g i) : Coded a' g' p e := by
  induction h with
  | done p => exact .done p
  | @chunk p e len hlen hchunk href hconst rest ih =>
    have hle := rest.le
    have hgp : g' p = g p := hg p (by omega) (by omega)
    refine .chunk len hlen ?_ (hgp ▸ href) (fun i hi hi' => ?_)
      (ih (fun i hi hi' => ha i (by omega) hi') fun i hi hi' => hg i (by omega) hi')
    · rw [hgp]
      exact hchunk.congr hlen fun i hi hi' => ha i hi (by omega)
    · rw [hg i hi (by omega), hgp]
      exact hconst i hi hi'

theorem Coded.append (h : Coded a g p q) (h' : Coded a g q e) : Coded a g p e := by
  induction h with
  | done p => exact h'
  | chunk len hlen hchunk href hconst _ ih => exact .chunk len hlen hchunk href hconst (ih h')

theorem Coded.nonneg (h : Coded a g p e) : ∀ i, p ≤ i → i < e → 0 ≤ g i := by
  induction h with
  | done p =>
    intro i hi hi'
    omega
  | @chunk p e len hlen hchunk href hconst rest ih =>
    intro i hi hi'
    by_cases hin : i < p + len
    · rw [hconst i hi hin]
      exact href
    · exact ih i (by omega) hi'

/-- The chunk at the beginning. -/
theorem Coded.head (h : Coded a g p e) (hlt : p < e) : ∃ len, 1 ≤ len ∧ IsChunk a p (g p) len ∧ 0 ≤ g p
    ∧ (∀ i, p ≤ i → i < p + len → g i = g p) ∧ Coded a g (p + len) e := by
  cases h with
  | done => omega
  | chunk len hlen hchunk href hconst rest => exact ⟨len, hlen, hchunk, href, hconst, rest⟩

theorem Coded.single (hlen : 1 ≤ len) (hchunk : IsChunk a p (g p) len) (href : 0 ≤ g p)
    (hconst : ∀ i, p ≤ i → i < p + len → g i = g p) : Coded a g p (p + len) :=
  .chunk len hlen hchunk href hconst (.done _)

/-- A chunk may be cut in two. -/
theorem Coded.cut (href : 0 ≤ g p)
    (hconst : ∀ i, p ≤ i → i < p + len → g i = g p) (rest : Coded a g (p + len) e) (hp : p < q)
    (hq : q < p + len) :
    let a' := ppSetreflen (ppSetreflen a p (g p) (q - p : Nat)) q (g p) (p + len - q : Nat)
    IsChunk a' p (g p) (q - p) ∧ Coded a' g q e ∧ ∀ i < p, a' i = a i := by
  intro a'
  have hend : q + (p + len - q) = p + len := by omega
  have hgq : g q = g p := hconst q (by omega) hq
  have hleft : 1 ≤ q - p := by omega
  have hright : 1 ≤ p + len - q := by omega
  have hframe : ∀ i, i < p ∨ p + len ≤ i → a' i = a i := by
    intro i hi
    have hout : i < q ∨ q + (p + len - q) ≤ i := by omega
    have hout' : i < p ∨ p + (q - p) ≤ i := by omega
    exact (setreflen_frame _ q (g p) hright hout).trans (setreflen_frame a p (g p) hleft hout')
  refine ⟨?_, ?_, fun i hi => hframe i (.inl hi)⟩
  · refine (setreflen_chunk a p (g p) (q - p)).congr hleft fun i hi hi' => ?_
    exact setreflen_frame _ q (g p) hright (.inl (by omega))
  · refine .chunk (p + len - q) (by omega) ?_ (hgq ▸ href) (fun i hi hi' => ?_) ?_
    · rw [hgq]
      exact setreflen_chunk _ q (g p) (p + len - q)
    · rw [hconst i (by omega) (by omega), hgq]
    · rw [hend]
      exact rest.congr (fun i hi _ => hframe i (.inr hi)) fun i _ _ => rfl

/-! ## Advancing -/

/-- The chunk that ends at `lcv`, if that is not the beginning. -/
structure Before (a g : Nat → Int) (lcv prevlcv : Nat) : Prop where
  lt : prevlcv < lcv
  coded : Coded a g 0 prevlcv
  chunk : IsChunk a prevlcv (g prevlcv) (lcv - prevlcv)
  nonneg : 0 ≤ g prevlcv
  const : ∀ i, prevlcv ≤ i → i < lcv → g i = g prevlcv

theorem Before.codedTo {lcv prevlcv : Nat} (h : Before a g lcv prevlcv) : Coded a g 0 lcv := by
  have hend : prevlcv + (lcv - prevlcv) = lcv := by
    have hlt := h.lt
    omega
  refine h.coded.append ?_
  rw [← hend]
  refine .single ?_ h.chunk h.nonneg ?_
  · have hlt := h.lt
    omega
  · rw [hend]
    exact h.const

theorem Before.congr {lcv prevlcv : Nat} (h : Before a g lcv prevlcv) (ha : ∀ i < lcv, a' i = a i) :
    Before a' g lcv prevlcv := by
  have hlt := h.lt
  refine ⟨h.lt, h.coded.congr (fun i _ hi => ha i (by omega)) fun _ _ _ => rfl, ?_, h.nonneg, h.const⟩
  exact h.chunk.congr (by omega) fun i _ hi => ha i (by omega)

/-- Where the first loop of `amap_pp_adjref` ends: at the slot, between two chunks. -/
theorem advance_spec (curslot rounds : Nat) : ∀ {a : Nat → Int} {lcv prevlcv : Nat},
    (lcv = 0 ∨ Before a g lcv prevlcv) → Coded a g lcv e → lcv ≤ curslot → curslot ≤ e →
    curslot ≤ lcv + rounds →
    ∃ a' prev', ppAdvance curslot rounds a lcv prevlcv = some (a', curslot, prev')
      ∧ (curslot = 0 ∨ Before a' g curslot prev') ∧ Coded a' g curslot e := by
  induction rounds with
  | zero =>
    intro a lcv prevlcv hb hc hle hce hr
    obtain rfl : lcv = curslot := by omega
    rw [ppAdvance, if_neg (Nat.lt_irrefl _)]
    exact ⟨a, prevlcv, rfl, hb, hc⟩
  | succ rounds ih =>
    intro a lcv prevlcv hb hc hle hce hr
    rw [ppAdvance]
    by_cases hlt : lcv < curslot
    · rw [if_pos hlt]
      obtain ⟨len, hlen, hchunk, href, hconst, rest⟩ := hc.head (by omega)
      have hto : Coded a g 0 lcv := by
        obtain rfl | hb := hb
        · exact .done 0
        · exact hb.codedTo
      dsimp only
      rw [hchunk.getreflen href]
      by_cases hpast : (curslot : Int) < lcv + len
      · rw [if_pos hpast]
        have hcast : (curslot : Int) - lcv = (curslot - lcv : Nat) := by omega
        have hcast' : (len : Int) - (curslot - lcv : Nat) = (lcv + len - curslot : Nat) := by omega
        rw [hcast, hcast']
        obtain ⟨hchunk', hrest', hframe⟩ := Coded.cut href hconst rest hlt (by omega)
        refine ih (.inr ⟨hlt, ?_, hchunk', href, ?_⟩) hrest' le_rfl hce (by omega)
        · exact hto.congr (fun i _ hi => hframe i hi) fun _ _ _ => rfl
        · exact fun i hi hi' => hconst i hi (by omega)
      · rw [if_neg hpast]
        have hsub : lcv + len - lcv = len := by omega
        rw [Int.toNat_natCast]
        refine ih (.inr ⟨by omega, hto, ?_, href, hconst⟩) rest (by omega) hce (by omega)
        rw [hsub]
        exact hchunk
    · obtain rfl : lcv = curslot := by omega
      rw [if_neg hlt]
      exact ⟨a, prevlcv, rfl, hb, hc⟩

/-! ## Adjusting -/

/-- The counts of a range, adjusted. -/
def adjusted (g : Nat → Int) (lo hi : Nat) (adjval : Int) (slot : Nat) : Int :=
  if lo ≤ slot ∧ slot < hi then g slot + adjval else g slot

/-- The anons of a range to which nothing refers are gone. -/
structure WipedZero (am am' : VmAmap) (g : Nat → Int) (lo hi : Nat) : Prop where
  same : SameMap am am'
  anon : ∀ slot, am'.amAnon slot = if (lo ≤ slot ∧ slot < hi) ∧ g slot = 0 then none else am.amAnon slot
  inv : SlotInv am'

theorem WipedZero.nil {am : VmAmap} (h : SlotInv am) : WipedZero am am g p p where
  same := .refl am
  anon slot := by rw [if_neg (by omega)]
  inv := h

theorem WipedZero.append {am₁ am₂ am₃ : VmAmap} (h : WipedZero am₁ am₂ g p q) (h' : WipedZero am₂ am₃ g q e)
    (hpq : p ≤ q) (hqe : q ≤ e) : WipedZero am₁ am₃ g p e where
  same := h.same.trans h'.same
  anon slot := by
    rw [h'.anon, h.anon]
    by_cases hz : g slot = 0
    · by_cases h1 : p ≤ slot ∧ slot < q
      · rw [if_neg (by omega), if_pos ⟨h1, hz⟩, if_pos (by omega)]
      · by_cases h2 : q ≤ slot ∧ slot < e
        · rw [if_pos ⟨h2, hz⟩, if_pos (by omega)]
        · rw [if_neg (by omega), if_neg (by omega), if_neg (by omega)]
    · rw [if_neg fun h => hz h.2, if_neg fun h => hz h.2, if_neg fun h => hz h.2]
  inv := h'.inv

theorem wipeUnref_spec {s : State} (h : SlotInv s.am) (hle : p + len ≤ s.am.amNslot)
    (hconst : ∀ i, p ≤ i → i < p + len → g i = ref) :
    ∃ s', wipeUnref s ref p len = some s' ∧ WipedZero s.am s'.am g p (p + len) := by
  rw [wipeUnref]
  split
  · rename_i hz
    obtain ⟨s', hs', hsame, hanon, hinv⟩ := wiperange_spec h hle
    refine ⟨s', hs', hsame, fun slot => ?_, hinv⟩
    rw [hanon]
    by_cases hin : p ≤ slot ∧ slot < p + len
    · rw [if_pos hin, if_pos ⟨hin, (hconst slot hin.1 hin.2).trans hz⟩]
    · rw [if_neg hin, if_neg fun h => hin h.1]
  · rename_i hz
    refine ⟨s, rfl, .refl _, fun slot => ?_, h⟩
    rw [if_neg]
    rintro ⟨hin, hg⟩
    exact hz ((hconst slot hin.1 hin.2).symm.trans hg)

/-- What the second loop knows of the chunk before the range: where it is, or that there is
none, or that it is too late to merge with it. -/
def PrevOk (a g : Nat → Int) (curslot lcv prevlcv : Nat) (prevref prevlen : Int) : Prop :=
  (lcv = curslot ∧ Before a g curslot prevlcv ∧ prevref = g prevlcv ∧ prevlen = (curslot - prevlcv : Nat))
    ∨ prevref = -1 ∨ (prevlcv : Int) + prevlen < lcv

/-- One chunk of the second loop, after what goes past the range was cut off. -/
theorem adjust_chunk {g' : Nat → Int} {curslot lcv prevlcv : Nat} {prevref prevlen adjval : Int}
    (hdone : Coded a g' 0 lcv) (hlen : 1 ≤ len)
    (hconst : ∀ i, lcv ≤ i → i < lcv + len → g' i = g lcv + adjval) (hrest : Coded a g (lcv + len) e)
    (hnn : 0 ≤ g lcv + adjval) (hold : ∀ i < curslot, g' i = g i)
    (hprev : PrevOk a g curslot lcv prevlcv prevref prevlen) :
    let a' :=
      if (lcv : Int) = prevlcv + prevlen ∧ g lcv + adjval = prevref then
        ppSetreflen a prevlcv (g lcv + adjval) (prevlen + len)
      else ppSetreflen a lcv (g lcv + adjval) len
    Coded a' g' 0 (lcv + len) ∧ Coded a' g (lcv + len) e := by
  intro a'
  have hglcv : g' lcv = g lcv + adjval := hconst lcv le_rfl (by omega)
  by_cases hmerge : (lcv : Int) = prevlcv + prevlen ∧ g lcv + adjval = prevref
  · have ha' : a' = ppSetreflen a prevlcv (g lcv + adjval) (prevlen + len) := if_pos hmerge
    obtain ⟨hcur, hbefore, hpref, hplen⟩ | hno | hlate := hprev
    · have hlt := hbefore.lt
      have hcast : prevlen + (len : Int) = (lcv + len - prevlcv : Nat) := by omega
      have hend : prevlcv + (lcv + len - prevlcv) = lcv + len := by omega
      have hgp : g' prevlcv = g lcv + adjval := by
        rw [hold prevlcv (by omega), hmerge.2, hpref]
      rw [hcast] at ha'
      have hone : 1 ≤ lcv + len - prevlcv := by omega
      rw [ha']
      refine ⟨?_, ?_⟩
      · have hfront : Coded (ppSetreflen a prevlcv (g lcv + adjval) (lcv + len - prevlcv : Nat)) g' 0 prevlcv :=
          hbefore.coded.congr (fun i _ hi => setreflen_frame a prevlcv _ hone (.inl hi))
            fun i _ hi => hold i (by omega)
        have hmerged : Coded (ppSetreflen a prevlcv (g lcv + adjval) (lcv + len - prevlcv : Nat)) g' prevlcv
            (prevlcv + (lcv + len - prevlcv)) := by
          refine .single hone ?_ (hgp ▸ hnn) fun i hi hi' => ?_
          · rw [hgp]
            exact setreflen_chunk a prevlcv (g lcv + adjval) (lcv + len - prevlcv)
          · by_cases hil : i < lcv
            · rw [hold i (by omega), hbefore.const i hi (by omega), hgp, hmerge.2, hpref]
            · rw [hconst i (by omega) (by omega), hgp]
        rw [hend] at hmerged
        exact hfront.append hmerged
      · refine hrest.congr (fun i hi _ => ?_) fun _ _ _ => rfl
        exact setreflen_frame a prevlcv _ hone (.inr (by omega))
    · omega
    · omega
  · have ha' : a' = ppSetreflen a lcv (g lcv + adjval) len := if_neg hmerge
    rw [ha']
    refine ⟨?_, ?_⟩
    · have hfront : Coded (ppSetreflen a lcv (g lcv + adjval) len) g' 0 lcv :=
        hdone.congr (fun i _ hi => setreflen_frame a lcv _ hlen (.inl hi)) fun _ _ _ => rfl
      refine hfront.append (.single hlen ?_ (hglcv ▸ hnn) fun i hi hi' => ?_)
      · rw [hglcv]
        exact setreflen_chunk a lcv (g lcv + adjval) len
      · rw [hconst i hi hi', hglcv]
    · refine hrest.congr (fun i hi _ => ?_) fun _ _ _ => rfl
      exact setreflen_frame a lcv _ hlen (.inr hi)

/-- The second loop of `amap_pp_adjref`: it ends if no count becomes negative, and only then,
with the counts adjusted and the slots wiped out that have none left. -/
theorem adjust_spec {curslot stopslot : Nat} {adjval : Int} {prevlcv : Nat} {prevref prevlen : Int}
    (hstop : stopslot ≤ e) (rounds : Nat) : ∀ {a : Nat → Int} {lcv : Nat} {s : State},
    curslot ≤ lcv → lcv ≤ stopslot → stopslot ≤ lcv + rounds →
    Coded a (adjusted g curslot stopslot adjval) 0 lcv → Coded a g lcv e →
    PrevOk a g curslot lcv prevlcv prevref prevlen → SlotInv s.am → e ≤ s.am.amNslot →
    (∃ i, lcv ≤ i ∧ i < stopslot ∧ g i + adjval < 0
      ∧ ppAdjust stopslot adjval prevlcv prevref prevlen rounds a lcv s = none)
    ∨ ∃ a' s', ppAdjust stopslot adjval prevlcv prevref prevlen rounds a lcv s = some (a', s')
      ∧ Coded a' (adjusted g curslot stopslot adjval) 0 stopslot ∧ Coded a' g stopslot e
      ∧ WipedZero s.am s'.am (adjusted g curslot stopslot adjval) lcv stopslot := by
  induction rounds with
  | zero =>
    intro a lcv s hcur hle hr hdone hrest hprev hinv hes
    obtain rfl : lcv = stopslot := by omega
    rw [ppAdjust, if_neg (Nat.lt_irrefl _)]
    exact .inr ⟨a, s, rfl, hdone, hrest, .nil hinv⟩
  | succ rounds ih =>
    intro a lcv s hcur hle hr hdone hrest hprev hinv hes
    rw [ppAdjust]
    by_cases hlt : lcv < stopslot
    · rw [if_pos hlt]
      obtain ⟨len, hlen, hchunk, href, hconst, rest⟩ := hrest.head (by omega)
      have hold : ∀ i < curslot, adjusted g curslot stopslot adjval i = g i := by
        intro i hi
        rw [adjusted, if_neg (by omega)]
      rw [hchunk.getreflen href]
      dsimp only
      -- the array and the length after the cut
      obtain ⟨a₁, n, hn, hnle, ha₁, hlen₁, hconst₁, hdone₁, hrest₁, hprev₁⟩ : ∃ a₁ n, 1 ≤ n
          ∧ lcv + n ≤ stopslot
          ∧ (if decide ((stopslot : Int) < lcv + len) then
              ppSetreflen (ppSetreflen a lcv (g lcv) (stopslot - lcv)) stopslot (g lcv)
                (len - (stopslot - lcv))
            else a) = a₁
          ∧ (if decide ((stopslot : Int) < lcv + len) then (stopslot : Int) - lcv else len) = (n : Int)
          ∧ (∀ i, lcv ≤ i → i < lcv + n → g i = g lcv)
          ∧ Coded a₁ (adjusted g curslot stopslot adjval) 0 lcv ∧ Coded a₁ g (lcv + n) e
          ∧ PrevOk a₁ g curslot lcv prevlcv prevref prevlen := by
        by_cases hpast : (stopslot : Int) < lcv + len
        · have hcast : (stopslot : Int) - lcv = (stopslot - lcv : Nat) := by omega
          have hcast' : (len : Int) - (stopslot - lcv : Nat) = (lcv + len - stopslot : Nat) := by omega
          rw [if_pos (decide_eq_true hpast), if_pos (decide_eq_true hpast), hcast, hcast']
          obtain ⟨-, hrest', hframe⟩ := Coded.cut href hconst rest hlt (by omega)
          refine ⟨_, stopslot - lcv, by omega, by omega, rfl, rfl, fun i hi hi' => ?_,
            hdone.congr (fun i _ hi => hframe i hi) fun _ _ _ => rfl, ?_, ?_⟩
          · exact hconst i hi (by omega)
          · rw [show lcv + (stopslot - lcv) = stopslot by omega]
            exact hrest'
          · obtain ⟨hc, hbefore, hpref, hplen⟩ | hno := hprev
            · exact .inl ⟨hc, hbefore.congr fun i hi => hframe i (by omega), hpref, hplen⟩
            · exact .inr hno
        · rw [if_neg (by rw [decide_eq_true_eq]; exact hpast),
            if_neg (by rw [decide_eq_true_eq]; exact hpast)]
          exact ⟨a, len, hlen, by omega, rfl, rfl, hconst, hdone, rest, hprev⟩
      rw [ha₁, hlen₁]
      by_cases hneg : g lcv + adjval < 0
      · rw [if_pos hneg]
        exact .inl ⟨lcv, le_rfl, hlt, hneg, rfl⟩
      · rw [if_neg hneg]
        have hnew : ∀ i, lcv ≤ i → i < lcv + n →
            adjusted g curslot stopslot adjval i = g lcv + adjval := by
          intro i hi hi'
          rw [adjusted, if_pos (by omega), hconst₁ i hi hi']
        obtain ⟨hdone₂, hrest₂⟩ := adjust_chunk hdone₁ hn hnew hrest₁ (by omega) hold hprev₁
        obtain ⟨s₁, hs₁, hwiped⟩ := wipeUnref_spec hinv (by omega) hnew
        rw [hs₁, Option.bind_some, Int.toNat_natCast]
        have hns : s₁.am.amNslot = s.am.amNslot := hwiped.same.nslot
        have hprev₂ : ∀ a₂, PrevOk a₂ g curslot (lcv + n) prevlcv prevref prevlen := by
          intro a₂
          obtain ⟨hc, hbefore, hpref, hplen⟩ | hno | hlate := hprev
          · have hblt := hbefore.lt
            exact .inr (.inr (by omega))
          · exact .inr (.inl hno)
          · exact .inr (.inr (by omega))
        obtain ⟨i, hi, histop, hin, hnone⟩ | ⟨a', s', hsome, hdone', hrest', hwiped'⟩ :=
          ih (by omega) hnle (by omega) hdone₂ hrest₂ (hprev₂ _) hwiped.inv (by omega)
        · exact .inl ⟨i, by omega, histop, hin, hnone⟩
        · exact .inr ⟨a', s', hsome, hdone', hrest', hwiped.append hwiped' (by omega) hnle⟩
    · obtain rfl : lcv = stopslot := by omega
      rw [if_neg hlt]
      exact .inr ⟨a, s, rfl, hdone, hrest, .nil hinv⟩

/-- `amap_pp_adjref`. -/
theorem adjref_spec {s : State} {curslot slotlen : Nat} {adjval : Int} (hp : s.am.amPpref = .array a)
    (hc : Coded a g 0 s.am.amNslot) (hinv : SlotInv s.am) (hle : curslot + slotlen ≤ s.am.amNslot) :
    (∃ i, curslot ≤ i ∧ i < curslot + slotlen ∧ g i + adjval < 0
      ∧ amapPpAdjref s curslot slotlen adjval = none)
    ∨ ∃ (a' : Nat → Int) (s' : State), amapPpAdjref s curslot slotlen adjval
        = some { s' with am := { s'.am with amPpref := .array a' } }
      ∧ Coded a' (adjusted g curslot (curslot + slotlen) adjval) 0 s.am.amNslot
      ∧ WipedZero s.am s'.am (adjusted g curslot (curslot + slotlen) adjval) curslot (curslot + slotlen) := by
  obtain ⟨a₁, prev, hadv, hb, hrest⟩ := advance_spec curslot curslot (.inl rfl) hc (Nat.zero_le _)
    (by omega) (by omega)
  have hto : Coded a₁ (adjusted g curslot (curslot + slotlen) adjval) 0 curslot := by
    have hold : Coded a₁ g 0 curslot := by
      obtain rfl | hb := hb
      · exact .done 0
      · exact hb.codedTo
    refine hold.congr (fun _ _ _ => rfl) fun i _ hi => ?_
    rw [adjusted, if_neg (by omega)]
  rw [amapPpAdjref, hp]
  dsimp only
  rw [hadv, Option.bind_some]
  rw [if_neg fun h => h rfl]
  have hprev : ∃ prevref prevlen, (if curslot ≠ 0 then ppGetreflen a₁ prev else (-1, 0)) = (prevref, prevlen)
      ∧ PrevOk a₁ g curslot curslot prev prevref prevlen := by
    obtain rfl | hb := hb
    · exact ⟨-1, 0, if_neg fun h => h rfl, .inr (.inl rfl)⟩
    · have hlt := hb.lt
      refine ⟨g prev, (curslot - prev : Nat), ?_, .inl ⟨rfl, hb, rfl, rfl⟩⟩
      rw [if_pos (by omega), hb.chunk.getreflen hb.nonneg]
  obtain ⟨prevref, prevlen, hpeq, hpok⟩ := hprev
  rw [hpeq]
  obtain ⟨i, hi, histop, hin, hnone⟩ | ⟨a', s', hsome, hdone', hrest', hwiped⟩ :=
    adjust_spec hle slotlen le_rfl (by omega) le_rfl hto hrest hpok hinv le_rfl
  · refine .inl ⟨i, hi, histop, hin, ?_⟩
    rw [hnone]
    rfl
  · refine .inr ⟨a', s', ?_, hdone'.append (hrest'.congr (fun _ _ _ => rfl) fun i hi _ => ?_), hwiped⟩
    · rw [hsome]
      rfl
    · rw [adjusted, if_neg (by omega)]

end Obsd.Amap
