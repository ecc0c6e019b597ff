import Obsd.IpFragmentReass

/-!
# Congestion marks and the order of arrival

The fragments of a datagram, without overlap, are handed to `ip_reass` in
some order. A mark of congestion is put into the header of the entry that
heads the queue when the marked fragment arrives, and the header that is
returned is that of the fragment at offset 0: a mark that arrives before
that fragment is lost (`reass_ecn_iff`).
-/

namespace Obsd.IpReass

open IpFragment (feed)

variable {e first : Ipqent} {T Q : List Ipqent} {key : Key}

/-! ## Codepoints -/

def Ip.ecn (ip : Ip) : BitVec 8 := ip.tos &&& ecnMask

/-- The fragment carries a mark of congestion. -/
def Ipqent.Ce (e : Ipqent) : Prop := e.ip.ecn = ecnCe

instance (e : Ipqent) : Decidable e.Ce := by unfold Ipqent.Ce; infer_instance

/-- An entry that carries the mark of another one. -/
def mark (e : Ipqent) : Ipqent := { e with ip := { e.ip with tos := e.ip.tos ||| ecnCe } }

theorem mark_ce (e : Ipqent) : (mark e).Ce := by
  unfold Ipqent.Ce Ip.ecn mark
  dsimp only
  generalize e.ip.tos = tos
  revert tos
  decide +kernel

/-- What the first entry becomes when a fragment is accepted. -/
def marked (e first : Ipqent) : Ipqent := if e.Ce ∧ ¬ first.Ce then mark first else first

theorem ecn_eq (h : e.ip.ecn = ecnNotect ↔ first.ip.ecn = ecnNotect) :
    ecn e first = some (marked e first) := by
  unfold ecn marked Ipqent.Ce mark
  unfold Ip.ecn at h ⊢
  have hne : ¬ (ecnCe = ecnNotect) := by decide
  rw [if_neg fun hc => hne (hc.1.symm.trans (h.mpr hc.2)),
    if_neg fun hc => hc.2 (h.mp hc.1)]
  split <;> rfl

/-! ## Fragments of a datagram -/

/-- The entries are the datagram from `pos` on, cut into pieces; the last may be empty. -/
def Tiles : Nat → List Ipqent → Prop
  | _, [] => False
  | pos, [e] => e.off = pos ∧ e.mff = false
  | pos, e :: e' :: rest => e.off = pos ∧ 0 < e.len ∧ e.mff = true ∧ Tiles (pos + e.len) (e' :: rest)

theorem Tiles.off_le {pos : Nat} (h : Tiles pos T) : ∀ a ∈ T, pos ≤ a.off := by
  induction T generalizing pos with
  | nil => exact absurd h id
  | cons e rest ih =>
    cases rest with
    | nil =>
      intro a ha
      rw [List.mem_singleton.mp ha]
      exact h.1.ge
    | cons e' rest =>
      obtain ⟨hoff, hlen, -, hrest⟩ := h
      intro a ha
      rcases List.mem_cons.mp ha with rfl | ha
      · exact hoff.ge
      · have := ih hrest a ha
        omega

theorem Tiles.head_off {pos : Nat} (h : Tiles pos (e :: T)) : e.off = pos := by
  cases T with
  | nil => exact h.1
  | cons e' rest => exact h.1

/-- An earlier piece ends where a later one begins, or before. -/
theorem Tiles.sorted {pos : Nat} (h : Tiles pos T) :
    T.Pairwise fun a b => a.stop ≤ b.off ∧ a.off < b.off := by
  induction T generalizing pos with
  | nil => exact absurd h id
  | cons e rest ih =>
    cases rest with
    | nil => exact List.pairwise_singleton _ _
    | cons e' rest =>
      obtain ⟨hoff, hlen, -, hrest⟩ := h
      refine List.pairwise_cons.mpr ⟨fun b hb => ?_, ih hrest⟩
      have hle := hrest.off_le b hb
      unfold Ipqent.stop
      omega

theorem Tiles.nodup {pos : Nat} (h : Tiles pos T) : T.Nodup :=
  h.sorted.imp fun hab heq => absurd (heq ▸ hab.2) (Nat.lt_irrefl _)

/-- What the queue looks at besides the codepoint. -/
theorem Tiles.map {pos : Nat} (h : Tiles pos T) {f : Ipqent → Ipqent}
    (hf : ∀ a, (f a).off = a.off ∧ (f a).len = a.len ∧ (f a).mff = a.mff) :
    Tiles pos (T.map f) := by
  induction T generalizing pos with
  | nil => exact absurd h id
  | cons e rest ih =>
    obtain ⟨hoff, hlen, hmff⟩ := hf e
    cases rest with
    | nil => exact ⟨hoff.trans h.1, hmff.trans h.2⟩
    | cons e' rest => exact ⟨hoff.trans h.1, hlen ▸ h.2.1, hmff.trans h.2.2.1, hlen ▸ ih h.2.2.2⟩

/-- The whole is scanned to its end. -/
theorem Tiles.scan {pos : Nat} (h : Tiles pos T) :
    scan pos T = some (pos + (T.map Ipqent.len).sum) := by
  induction T generalizing pos with
  | nil => exact absurd h id
  | cons e rest ih =>
    cases rest with
    | nil =>
      rw [IpReass.scan, if_neg (not_not_intro h.1)]
      rfl
    | cons e' rest =>
      rw [IpReass.scan, if_neg (not_not_intro h.1), ih h.2.2.2]
      simp only [List.map_cons, List.sum_cons, Nat.add_assoc]

theorem Tiles.last_mff {pos : Nat} (h : Tiles pos T) {last : Ipqent} (hl : T.getLast? = some last) :
    last.mff = false := by
  induction T generalizing pos with
  | nil => exact absurd h id
  | cons e rest ih =>
    cases rest with
    | nil =>
      obtain rfl : e = last := by simpa using hl
      exact h.2
    | cons e' rest => exact ih h.2.2.2 (by rwa [List.getLast?_cons_cons] at hl)

theorem Tiles.mff_of_ne_last {pos : Nat} (h : Tiles pos T) {a b : Ipqent} (ha : a ∈ T) (hb : b ∈ T)
    (hlt : a.off < b.off) : a.mff = true := by
  induction T generalizing pos with
  | nil => exact absurd h id
  | cons e rest ih =>
    cases rest with
    | nil =>
      rw [List.mem_singleton.mp ha, List.mem_singleton.mp hb] at hlt
      exact absurd hlt (Nat.lt_irrefl _)
    | cons e' rest =>
      obtain ⟨hoff, hlen, hmff, hrest⟩ := h
      rcases List.mem_cons.mp ha with rfl | ha'
      · exact hmff
      · have hle := hrest.off_le a ha'
        rcases List.mem_cons.mp hb with rfl | hb'
        · omega
        · exact ih hrest ha' hb'

/-- Pieces without a gap are the first ones. -/
theorem Tiles.prefix_of_scan {pos n : Nat} (h : Tiles pos T) (hsub : Q.Sublist T)
    (hscan : IpReass.scan pos Q = some n) : Q <+: T := by
  induction T generalizing pos Q with
  | nil => exact absurd h id
  | cons e rest ih =>
    cases Q with
    | nil => exact List.nil_prefix
    | cons q Q =>
      cases rest with
      | nil =>
        exact hsub.eq_of_length_le (by simp) ▸ List.prefix_rfl
      | cons e' rest =>
        obtain ⟨hoff, hlen, -, hrest⟩ := h
        rcases List.sublist_cons_iff.mp hsub with hsub | ⟨Q', heq, hsub⟩
        · have hq := hrest.off_le q (hsub.subset List.mem_cons_self)
          rw [IpReass.scan, if_pos (by omega)] at hscan
          cases hscan
        · obtain ⟨rfl, rfl⟩ := List.cons.inj heq
          rw [IpReass.scan, if_neg (not_not_intro hoff)] at hscan
          exact (List.prefix_cons_inj q).mpr (ih hrest hsub hscan)

/-- As long as a piece is missing the queue waits. -/
theorem Tiles.wait (h : Tiles 0 T) (hsub : Q.Sublist T) (hne : Q ≠ T) :
    complete key Q = .wait := by
  cases Q with
  | nil => rfl
  | cons first rest =>
    rw [complete]
    cases hscan : IpReass.scan 0 (first :: rest) with
    | none => rfl
    | some n =>
      obtain ⟨R, hR⟩ := h.prefix_of_scan hsub hscan
      have hlast : (first :: rest).getLast? = some (rest.getLast?.getD first) := List.getLast?_cons
      obtain ⟨last, hl⟩ : ∃ l, rest.getLast?.getD first = l := ⟨_, rfl⟩
      rw [hl] at hlast
      have hmem : last ∈ first :: rest := List.mem_of_getLast? hlast
      cases R with
      | nil => exact absurd (by rwa [List.append_nil] at hR) hne
      | cons r R =>
        -- a later piece is missing, so the last one here is not the last of all
        have hmff : last.mff = true := by
          rw [← hR] at h
          refine h.mff_of_ne_last (List.mem_append_left _ hmem)
            (List.mem_append_right _ List.mem_cons_self) ?_
          exact ((List.pairwise_append.mp h.sorted).2.2 last hmem r List.mem_cons_self).2
        rw [hl]
        exact if_pos hmff

/-- All pieces are the datagram, with the header of the first. -/
theorem Tiles.done {rest : List Ipqent} (h : Tiles 0 (first :: rest))
    (hfit : ((first :: rest).map Ipqent.len).sum + first.ip.hlen ≤ ipMaxpacket) :
    ∃ m, complete key (first :: rest) = .done m ∧ m.ip.tos = first.ip.tos := by
  have hlast : (first :: rest).getLast? = some (rest.getLast?.getD first) := List.getLast?_cons
  obtain ⟨last, hl⟩ : ∃ l, rest.getLast?.getD first = l := ⟨_, rfl⟩
  rw [hl] at hlast
  rw [complete, h.scan]
  dsimp only
  rw [hl, h.last_mff hlast, if_neg (by decide), if_neg (by omega)]
  exact ⟨_, rfl, rfl⟩

/-- Fragments that complete a datagram, none of them dropped for its codepoint. -/
structure Datagram (key : Key) (T : List Ipqent) : Prop where
  tiles : Tiles 0 T
  key : ∀ e ∈ T, e.ip.key = key
  fits : ∀ e ∈ T, e.off = 0 → (T.map Ipqent.len).sum + e.ip.hlen ≤ ipMaxpacket
  accepted : ∀ a ∈ T, ∀ b ∈ T, a.ip.ecn = ecnNotect ↔ b.ip.ecn = ecnNotect

/-! ## Marking an entry -/

theorem marked_fields (e first : Ipqent) :
    (marked e first).off = first.off ∧ (marked e first).len = first.len ∧
      (marked e first).mff = first.mff ∧ (marked e first).ip.key = first.ip.key ∧
      (marked e first).ip.hlen = first.ip.hlen := by
  unfold marked
  split
  · exact ⟨rfl, rfl, rfl, rfl, rfl⟩
  · exact ⟨rfl, rfl, rfl, rfl, rfl⟩

/-- The entry `first` is marked for `e`. -/
def remark (e first x : Ipqent) : Ipqent := if x = first then marked e first else x

theorem remark_fields (e first x : Ipqent) :
    (remark e first x).off = x.off ∧ (remark e first x).len = x.len ∧
      (remark e first x).mff = x.mff ∧ (remark e first x).ip.key = x.ip.key ∧
      (remark e first x).ip.hlen = x.ip.hlen := by
  unfold remark
  split
  · rename_i heq
    rw [heq]
    exact marked_fields e first
  · exact ⟨rfl, rfl, rfl, rfl, rfl⟩

theorem remark_notect (h : e.ip.ecn = ecnNotect ↔ first.ip.ecn = ecnNotect) (x : Ipqent) :
    (remark e first x).ip.ecn = ecnNotect ↔ x.ip.ecn = ecnNotect := by
  unfold remark
  split
  · rename_i heq
    rw [heq, marked]
    split
    · rename_i hce
      have hne : ¬ (ecnCe = ecnNotect) := by decide
      have hmark : (mark first).ip.ecn = ecnCe := mark_ce first
      exact iff_of_false (hmark ▸ hne) fun h0 => hne (hce.1.symm.trans (h.mpr h0))
    · exact Iff.rfl
  · exact Iff.rfl

theorem Datagram.remark (h : Datagram key T) (he : e ∈ T) (hfirst : first ∈ T) :
    Datagram key (T.map (remark e first)) := by
  refine ⟨h.tiles.map fun a => ⟨(remark_fields e first a).1, (remark_fields e first a).2.1,
    (remark_fields e first a).2.2.1⟩, fun x hx => ?_, fun x hx h0 => ?_, fun a ha b hb => ?_⟩
  · obtain ⟨y, hy, rfl⟩ := List.mem_map.mp hx
    rw [(remark_fields e first y).2.2.2.1]
    exact h.key y hy
  · obtain ⟨y, hy, rfl⟩ := List.mem_map.mp hx
    have hlens : (T.map (IpReass.remark e first)).map Ipqent.len = T.map Ipqent.len := by
      rw [List.map_map]
      exact List.map_congr_left fun z _ => (remark_fields e first z).2.1
    rw [hlens, (remark_fields e first y).2.2.2.2]
    exact h.fits y hy ((remark_fields e first y).1 ▸ h0)
  · obtain ⟨y, hy, rfl⟩ := List.mem_map.mp ha
    obtain ⟨z, hz, rfl⟩ := List.mem_map.mp hb
    have hacc := h.accepted e he first hfirst
    rw [remark_notect hacc, remark_notect hacc]
    exact h.accepted y hy z hz

theorem remark_of_not_mem {l : List Ipqent} (h : first ∉ l) : l.map (remark e first) = l := by
  refine (List.map_congr_left fun x hx => ?_).trans (List.map_id l)
  exact if_neg (by rintro rfl; exact h hx)

theorem remark_queue {rest : List Ipqent} (h : first ∉ rest) :
    (first :: rest).map (remark e first) = marked e first :: rest := by
  rw [List.map_cons, remark_of_not_mem h, remark, if_pos rfl]

/-! ## What comes out -/

/-- The fragments that arrive with the head of the datagram in the queue, or are the head. -/
def seen (head : Ipqent) (Q l : List Ipqent) : List Ipqent :=
  if head ∈ Q then l else l.dropWhile fun x => x ≠ head

/-- The codepoint that is returned. -/
def ecnOut (head : Ipqent) (seen : List Ipqent) : BitVec 8 :=
  if head.Ce ∨ ∃ e ∈ seen, e.Ce then ecnCe else head.ip.ecn

theorem ecnOut_marked (e head : Ipqent) (l : List Ipqent) :
    ecnOut (marked e head) l = ecnOut head (e :: l) := by
  unfold ecnOut
  simp only [List.exists_mem_cons_iff]
  by_cases hhead : head.Ce
  · have hmarked : marked e head = head := if_neg fun h => h.2 hhead
    rw [hmarked, if_pos (.inl hhead), if_pos (.inl hhead)]
  · by_cases he : e.Ce
    · have hmarked : marked e head = mark head := if_pos ⟨he, hhead⟩
      rw [hmarked, if_pos (.inl (mark_ce head)), if_pos (.inr (.inl he))]
    · have hmarked : marked e head = head := if_neg fun h => he h.1
      rw [hmarked]
      simp only [he, false_or]

theorem ecnOut_self (head : Ipqent) (l : List Ipqent) :
    ecnOut head (head :: l) = ecnOut head l := by
  unfold ecnOut
  simp only [List.exists_mem_cons_iff]
  by_cases h : head.Ce
  · rw [if_pos (.inl h), if_pos (.inl h)]
  · simp only [h, false_or]

theorem ecnOut_nil (head : Ipqent) : ecnOut head [] = head.ip.ecn := by
  unfold ecnOut
  split
  · rename_i h
    rcases h with h | ⟨e, he, -⟩
    · exact h.symm
    · exact absurd he List.not_mem_nil
  · rfl

/-- What is seen of the fragments still to come, once `e` is in the queue and the
first entry is marked for it. -/
theorem ecnOut_step {head : Ipqent} {rest Q₁ Q₂ l : List Ipqent} (hT : (head :: T).Nodup)
    (hmap : ((head :: T).map (remark e first)).Nodup) (hsub : (first :: rest).Sublist (head :: T))
    (hQ : (first :: rest).map (remark e first) = Q₁ ++ Q₂) :
    ecnOut (remark e first head) (seen (remark e first head) (Q₁ ++ e :: Q₂) l)
      = ecnOut head (seen head (first :: rest) (e :: l)) := by
  have hmemQ : ∀ x, x ∈ Q₁ ++ e :: Q₂ ↔ x = e ∨ x ∈ (first :: rest).map (remark e first) := by
    intro x
    rw [hQ, List.mem_append, List.mem_append, List.mem_cons]
    tauto
  by_cases hhead : head ∈ first :: rest
  · -- the head of the datagram heads the queue, and is marked
    have hfirst : head = first := by
      rcases List.sublist_cons_iff.mp hsub with hsub | ⟨r, heq, -⟩
      · exact absurd (hsub.subset hhead) (List.nodup_cons.mp hT).1
      · exact (List.cons.inj heq).1.symm
    subst hfirst
    have hin : remark e head head ∈ Q₁ ++ e :: Q₂ :=
      (hmemQ _).mpr (.inr (List.mem_map_of_mem hhead))
    rw [seen, seen, if_pos hin, if_pos hhead, remark, if_pos rfl, ecnOut_marked]
  · have hne : head ≠ first := fun heq => hhead (heq ▸ List.mem_cons_self)
    have hsame : remark e first head = head := if_neg hne
    rw [hsame]
    by_cases he : e = head
    · subst he
      have hin : e ∈ Q₁ ++ e :: Q₂ := (hmemQ _).mpr (.inl rfl)
      rw [seen, seen, if_pos hin, if_neg hhead, List.dropWhile_cons_of_neg (by simp), ecnOut_self]
    · have hout : head ∉ Q₁ ++ e :: Q₂ := by
        rw [hmemQ]
        rintro (heq | hmem)
        · exact he heq.symm
        · obtain ⟨x, hx, hxh⟩ := List.mem_map.mp hmem
          have heq : x = head := List.inj_on_of_nodup_map hmap (hsub.subset hx)
            List.mem_cons_self (hxh.trans hsame.symm)
          exact hhead (heq ▸ hx)
      rw [seen, seen, if_neg hout, if_neg hhead, List.dropWhile_cons_of_pos (by simpa using he)]

/-! ## Any order -/

/-- The fragments that are missing complete the queue, the last of them. -/
theorem feed_ecn {head : Ipqent} (l : List Ipqent) (hl : l ≠ []) (h : Datagram key (head :: T))
    (hperm : (l ++ Q).Perm (head :: T)) (hsub : Q.Sublist (head :: T)) (hQ : Q ≠ [])
    (ttl : BitVec 8) (ipq : List Ipq) (frags : Int) :
    ∃ s m, feed l ⟨⟨key, ttl, Q⟩ :: ipq, frags⟩
        = some (s, List.replicate (l.length - 1) none ++ [some m]) ∧
      m.ip.ecn = ecnOut head (seen head Q l) := by
  induction l generalizing Q T head frags with
  | nil => exact absurd rfl hl
  | cons e l ih =>
    have hnodup := h.tiles.nodup
    have hlQ := hperm.nodup_iff.mpr hnodup
    have he : e ∈ head :: T := hperm.subset List.mem_cons_self
    obtain ⟨first, rest, rfl⟩ := List.exists_cons_of_ne_nil hQ
    have hfirst : first ∈ head :: T := hsub.subset List.mem_cons_self
    have hdata : Datagram key ((head :: T).map (remark e first)) := h.remark he hfirst
    have hrest : first ∉ rest := (List.nodup_cons.mp (hsub.nodup hnodup)).1
    -- the fragments still to come are not in the queue, so they keep their codepoints
    have hel : first ∉ e :: l := fun hmem =>
      (List.nodup_append.mp hlQ).2.2 first hmem first List.mem_cons_self rfl
    have hpermR : ((e :: l) ++ marked e first :: rest).Perm ((head :: T).map (remark e first)) := by
      have := hperm.map (remark e first)
      rwa [List.map_append, remark_of_not_mem hel, remark_queue hrest] at this
    have hsubR : (marked e first :: rest).Sublist ((head :: T).map (remark e first)) := by
      have := hsub.map (remark e first)
      rwa [remark_queue hrest] at this
    have heR : e ∈ (head :: T).map (remark e first) := hpermR.subset List.mem_cons_self
    have hnot : e ∉ marked e first :: rest := by
      have := hpermR.nodup_iff.mpr hdata.tiles.nodup
      exact fun hmem => (List.nodup_cons.mp this).1 (List.mem_append_right _ hmem)
    obtain ⟨A, B, hAB⟩ := List.append_of_mem heR
    rw [hAB] at hsubR hpermR
    obtain ⟨Q₁, Q₂, hQ', h₁, h₂⟩ := List.sublist_append_iff.mp hsubR
    have h₂' : Q₂.Sublist B := by
      rcases List.sublist_cons_iff.mp h₂ with h₂ | ⟨r, rfl, -⟩
      · exact h₂
      · exact absurd (hQ' ▸ List.mem_append_right _ List.mem_cons_self) hnot
    have hsorted := hdata.tiles.sorted
    rw [hAB] at hsorted
    obtain ⟨-, hafter, hbefore⟩ := List.pairwise_append.mp hsorted
    have hplace : place (marked e first :: rest) e = some (Q₁ ++ e :: Q₂, 0) := by
      rw [hQ']
      exact place_between (fun a ha => (hbefore a (h₁.subset ha) e List.mem_cons_self).1)
        fun b hb => (List.pairwise_cons.mp hafter).1 b (h₂'.subset hb)
    have hsub' : (Q₁ ++ e :: Q₂).Sublist (A ++ e :: B) := h₁.append (h₂'.cons_cons e)
    have hperm' : (l ++ (Q₁ ++ e :: Q₂)).Perm (A ++ e :: B) := by
      refine List.Perm.trans ?_ hpermR
      rw [hQ', ← List.append_assoc]
      refine List.perm_middle.trans ?_
      rw [List.append_assoc, List.cons_append]
    have hout := ecnOut_step hnodup hdata.tiles.nodup hsub ((remark_queue hrest).trans hQ')
      (l := l)
    have hkey : e.ip.key = key := h.key e he
    have hfind : (⟨key, ttl, first :: rest⟩ :: ipq).find? (fun fp => fp.key = e.ip.key)
        = some ⟨key, ttl, first :: rest⟩ :=
      List.find?_cons_of_pos (decide_eq_true hkey.symm)
    have hreplace : ∀ new, replace e.ip.key new (⟨key, ttl, first :: rest⟩ :: ipq)
        = new.toList ++ ipq := fun new => if_pos hkey.symm
    rw [feed, ipReass]
    rw [hfind]
    dsimp only
    rw [ecn_eq (h.accepted e he first hfirst)]
    dsimp only
    rw [hplace]
    dsimp only
    rw [← hAB, List.map_cons] at hsub' hperm'
    cases l with
    | nil =>
      have hall : Q₁ ++ e :: Q₂ = remark e first head :: T.map (remark e first) :=
        hsub'.eq_of_length (by simpa using hperm'.length_eq)
      obtain ⟨m, hdone, htos⟩ : ∃ m, complete e.ip.key _ = .done m ∧ _ :=
        hdata.tiles.done (hdata.fits _ List.mem_cons_self hdata.tiles.head_off)
      rw [hall, hdone]
      refine ⟨_, m, rfl, ?_⟩
      have hnil : seen (remark e first head) (Q₁ ++ e :: Q₂) [] = [] := by
        unfold seen
        split <;> rfl
      rw [← hout, hnil, ecnOut_nil, Ip.ecn, Ip.ecn, htos]
    | cons e' l =>
      have hne : Q₁ ++ e :: Q₂ ≠ remark e first head :: T.map (remark e first) := by
        intro heq
        rw [heq] at hperm'
        have hlength := hperm'.length_eq
        rw [List.length_append, List.length_cons] at hlength
        omega
      rw [hdata.tiles.wait hsub' hne]
      rw [hreplace]
      obtain ⟨s, m, hfeed, hecn⟩ := ih (List.cons_ne_nil e' l) hdata hperm' hsub'
        (List.append_ne_nil_of_right_ne_nil Q₁ (List.cons_ne_nil e Q₂))
        (frags + 1 - ((0 : Nat) : Int))
      refine ⟨s, m, ?_, hecn.trans hout⟩
      show (feed (e' :: l) ⟨⟨key, ttl, Q₁ ++ e :: Q₂⟩ :: ipq, frags + 1 - ((0 : Nat) : Int)⟩).bind
        _ = _
      rw [hfeed]
      rfl

/-- The codepoint of the datagram: a mark that any fragment carries, and else that of
the fragment at offset 0. -/
def datagramEcn (T : List Ipqent) : BitVec 8 :=
  if ∃ e ∈ T, e.Ce then ecnCe else (T.head?.map fun e => e.ip.ecn).getD ecnNotect

theorem dropWhile_congr {p q : Ipqent → Bool} {l : List Ipqent} (h : ∀ x ∈ l, p x = q x) :
    l.dropWhile p = l.dropWhile q := by
  induction l with
  | nil => rfl
  | cons x l ih =>
    rw [List.dropWhile_cons, List.dropWhile_cons, h x List.mem_cons_self,
      ih fun y hy => h y (List.mem_cons_of_mem _ hy)]

/-- The fragments, handed over in any order, give the datagram with the last of them. -/
theorem feed_order {head : Ipqent} {l : List Ipqent} (h : Datagram key (head :: T))
    (hperm : l.Perm (head :: T)) (s : State) (hnew : ∀ fp ∈ s.ipq, fp.key ≠ key) :
    ∃ s' m, feed l s = some (s', List.replicate (l.length - 1) none ++ [some m]) ∧
      m.ip.ecn = ecnOut head (l.dropWhile fun x => x ≠ head) := by
  obtain _ | ⟨e, l⟩ := l
  · exact absurd hperm.length_eq (by simp)
  have he : e ∈ head :: T := hperm.subset List.mem_cons_self
  have hkey : e.ip.key = key := h.key e he
  have hfind : s.ipq.find? (fun fp => fp.key = e.ip.key) = none := by
    refine List.find?_eq_none.mpr fun fp hfp => ?_
    rw [hkey]
    simpa using hnew fp hfp
  have hsub : [e].Sublist (head :: T) := List.singleton_sublist.mpr he
  rw [feed, ipReass]
  rw [hfind]
  cases l with
  | nil =>
    obtain ⟨rfl, rfl⟩ : e = head ∧ T = [] := by
      have hlen := hperm.length_eq
      have hT : T = [] := List.eq_nil_of_length_eq_zero (by simpa using hlen.symm)
      subst hT
      exact ⟨List.mem_singleton.mp he, rfl⟩
    obtain ⟨m, hdone, htos⟩ : ∃ m, complete e.ip.key [e] = .done m ∧ m.ip.tos = e.ip.tos :=
      h.tiles.done (h.fits e List.mem_cons_self h.tiles.head_off)
    rw [hdone]
    refine ⟨_, m, rfl, ?_⟩
    rw [List.dropWhile_cons_of_neg (by simp), ecnOut_self, ecnOut_nil, Ip.ecn, Ip.ecn, htos]
  | cons e' l =>
    have hne : [e] ≠ head :: T := fun heq => by
      have hlen := hperm.length_eq
      rw [← heq] at hlen
      simp at hlen
    rw [h.tiles.wait hsub hne]
    rw [hkey]
    obtain ⟨s', m, hfeed, hecn⟩ := feed_ecn (Q := [e]) (e' :: l) (List.cons_ne_nil e' l) h
      ((List.perm_append_singleton e (e' :: l)).trans hperm) hsub (List.cons_ne_nil e [])
      60#8 s.ipq (s.frags + 1)
    refine ⟨s', m, ?_, hecn.trans ?_⟩
    · show (feed (e' :: l) ⟨⟨key, 60#8, [e]⟩ :: s.ipq, s.frags + 1⟩).bind _ = _
      rw [hfeed]
      rfl
    · by_cases heq : e = head
      · subst heq
        rw [seen, if_pos List.mem_cons_self, List.dropWhile_cons_of_neg (by simp), ecnOut_self]
      · have hdrop : (e :: e' :: l).dropWhile (fun x => x ≠ head)
            = (e' :: l).dropWhile fun x => x ≠ head :=
          List.dropWhile_cons_of_pos (by simpa using heq)
        rw [seen, if_neg fun hmem => heq (List.mem_singleton.mp hmem).symm, hdrop]

/-- The header that comes out has the codepoint of the datagram exactly if no fragment is
marked, or one that does not arrive before the fragment at offset 0. -/
theorem reass_ecn_iff {l : List Ipqent} (h : Datagram key T) (hperm : l.Perm T) (s : State)
    (hnew : ∀ fp ∈ s.ipq, fp.key ≠ key) :
    ∃ s' m, feed l s = some (s', List.replicate (T.length - 1) none ++ [some m]) ∧
      (m.ip.ecn = datagramEcn T ↔
        (∀ e ∈ T, ¬ e.Ce) ∨ ∃ e ∈ l.dropWhile (fun e => e.off ≠ 0), e.Ce) := by
  obtain _ | ⟨head, T⟩ := T
  · exact absurd h.tiles id
  obtain ⟨s', m, hfeed, hecn⟩ := feed_order h hperm s hnew
  refine ⟨s', m, hperm.length_eq ▸ hfeed, ?_⟩
  have hoff : l.dropWhile (fun e => e.off ≠ 0) = l.dropWhile fun x => x ≠ head := by
    refine dropWhile_congr fun x hx => decide_eq_decide.mpr (not_congr ⟨fun h0 => ?_, ?_⟩)
    · rcases List.mem_cons.mp (hperm.subset hx) with rfl | hx
      · rfl
      · have := ((List.pairwise_cons.mp h.tiles.sorted).1 x hx).2
        omega
    · rintro rfl
      exact h.tiles.head_off
  have hhead : head ∈ l.dropWhile fun x => x ≠ head := by
    obtain ⟨A, B, rfl⟩ := List.append_of_mem (hperm.mem_iff.mpr List.mem_cons_self)
    rw [List.dropWhile_append]
    split
    · rw [List.dropWhile_cons_of_neg (by simp)]
      exact List.mem_cons_self
    · exact List.mem_append_right _ List.mem_cons_self
  have hsubset : ∀ x ∈ l.dropWhile (fun x => x ≠ head), x ∈ head :: T := fun x hx =>
    hperm.subset ((List.dropWhile_sublist _).subset hx)
  rw [hoff, hecn, ecnOut, datagramEcn, List.head?_cons, Option.map_some, Option.getD_some]
  by_cases hseen : ∃ e ∈ l.dropWhile (fun x => x ≠ head), e.Ce
  · obtain ⟨x, hx, hce⟩ := hseen
    rw [if_pos (.inr ⟨x, hx, hce⟩), if_pos ⟨x, hsubset x hx, hce⟩]
    exact iff_of_true rfl (.inr ⟨x, hx, hce⟩)
  · have hnot : ¬ head.Ce := fun hce => hseen ⟨head, hhead, hce⟩
    rw [if_neg fun hc => hc.elim hnot hseen]
    by_cases hany : ∃ e ∈ head :: T, e.Ce
    · obtain ⟨x, hx, hce⟩ := hany
      rw [if_pos ⟨x, hx, hce⟩]
      exact iff_of_false hnot fun hc => hc.elim (fun hall => hall x hx hce) hseen
    · rw [if_neg hany]
      exact iff_of_true rfl (.inl fun x hx hce => hany ⟨x, hx, hce⟩)

/-! Sixteen bytes in two fragments, the second marked on its way. -/

/-- A fragment of eight bytes with codepoint `ecn`. -/
def eight (off : BitVec 16) (mff : Bool) (ecn : BitVec 8) : Ipqent :=
  ⟨mff, ⟨5#4, ecn, 8#16, 7#16, off, 17#8, 1#32, 2#32⟩, 0, [0, 1, 2, 3, 4, 5, 6, 7]⟩

/-- ECT(0), and CE. -/
def ectThenCe : List Ipqent := [eight 0#16 true 0x02#8, eight 8#16 false 0x03#8]

theorem datagram_ectThenCe : Datagram (eight 0#16 true 0#8).ip.key ectThenCe where
  tiles := by simp [Tiles, ectThenCe, eight, Ipqent.off, Ipqent.len]
  key := by simp [ectThenCe, eight, Ip.key]
  fits := by simp [ectThenCe, eight, Ip.hlen, ipMaxpacket, Ipqent.len]
  accepted := by decide

theorem reass_ecn_in_order :
    ∃ s' m, feed ectThenCe {} = some (s', [none] ++ [some m]) ∧
      (m.ip.ecn = datagramEcn ectThenCe ↔ (∀ e ∈ ectThenCe, ¬ e.Ce) ∨
        ∃ e ∈ ectThenCe.dropWhile (fun e => e.off ≠ 0), e.Ce) :=
  reass_ecn_iff datagram_ectThenCe (List.Perm.refl _) {} (by simp)

/-- In the other order the mark goes with the header of the second fragment. -/
theorem reass_loses_mark :
    ∃ s s' m m', feed ectThenCe {} = some (s, [none, some m]) ∧
      feed ectThenCe.reverse {} = some (s', [none, some m']) ∧
      m.ip.ecn = ecnCe ∧ m'.ip.ecn = 0x02#8 := by
  exact ⟨_, _, _, _, rfl, rfl, rfl, rfl⟩

end Obsd.IpReass
