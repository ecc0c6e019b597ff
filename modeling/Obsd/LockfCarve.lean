import Obsd.Lockf

/-!
# Cutting a range out of the locks of an owner

What `lf_clearlock` and `lf_setlock` are for, said of lists of locks
without their walks: every lock of the owner that meets the range is
replaced by what is left of it before and behind (`carve`). The offsets
an owner has locked, and how (`mode`), are then exactly those outside
the range (`carveAll_holds`), provided no remainder begins at a wrapped
offset (`NoWrap`).
-/

namespace Obsd.Lf

/-! ## Ranges -/

/-- A range as `lf_advlock` makes them. -/
structure Lockf.Ranged (b : Lockf) : Prop where
  start : 0 ≤ b.lfStart ∧ b.lfStart ≤ offMax
  end_ : b.lfEnd = -1 ∨ (b.lfStart ≤ b.lfEnd ∧ b.lfEnd ≤ offMax)

/-- A range with a type to hold. -/
structure Lockf.Valid (b : Lockf) : Prop extends b.Ranged where
  type : b.lfType ≠ .unlck

def Lockf.Covers (b : Lockf) (x : Int) : Prop := b.lfStart ≤ x ∧ (b.lfEnd = -1 ∨ x ≤ b.lfEnd)

instance (b : Lockf) (x : Int) : Decidable (b.Covers x) := inferInstanceAs (Decidable (_ ∧ _))

/-- The range of `a` ends before that of `b` begins. -/
def Before (a b : Lockf) : Prop := a.lfEnd ≠ -1 ∧ a.lfEnd < b.lfStart

instance (a b : Lockf) : Decidable (Before a b) := inferInstanceAs (Decidable (_ ∧ _))

section Ranges

variable {a b lock : Lockf}

theorem ovCase_noOverlap : ovCase b lock = .noOverlap ↔ Before b lock ∨ Before lock b := by
  unfold ovCase Before
  dsimp only
  split_ifs with h0 h1 h2 h3 h4 h5
  · simp only [true_iff]
    rcases h0 with h0 | h0
    · exact .inl ⟨h0.1, h0.2⟩
    · exact .inr ⟨h0.1, h0.2⟩
  all_goals
    simp only [false_iff]
    intro h
    exact h0 (h.imp (fun h => ⟨h.1, h.2⟩) fun h => ⟨h.1, h.2⟩)

/-- One of the six cases always applies. -/
theorem ovCase_ne_panics : ovCase b lock ≠ .panics := by
  unfold ovCase
  dsimp only
  split_ifs <;> first | (intro h; cases h; done) | omega

theorem Before.no_common (h : Before a b) {x : Int} (ha : a.Covers x) (hb : b.Covers x) : False := by
  obtain ⟨h1, h2⟩ := h
  obtain ⟨-, h3 | h3⟩ := ha
  · exact h1 h3
  · have := hb.1
    omega

/-- Two ranges that neither precede the other have a byte in common. -/
theorem exists_common (ha : a.Valid) (hb : b.Valid) (h : ¬(Before a b ∨ Before b a)) :
    ∃ x, a.Covers x ∧ b.Covers x := by
  have h1 := ha.end_
  have h2 := hb.end_
  simp only [Before, not_or, not_and, Int.not_lt] at h
  obtain ⟨hab, hba⟩ := h
  refine ⟨max a.lfStart b.lfStart, ⟨by omega, ?_⟩, ⟨by omega, ?_⟩⟩
  · by_cases he : a.lfEnd = -1
    · exact .inl he
    · exact .inr (by omega)
  · by_cases he : b.lfEnd = -1
    · exact .inl he
    · exact .inr (by omega)

theorem Before.trans {c : Lockf} (hb : b.Valid) (h : Before a b) (h' : Before b c) : Before a c := by
  have := hb.end_
  obtain ⟨h1, h2⟩ := h
  obtain ⟨h3, h4⟩ := h'
  exact ⟨h1, by omega⟩

end Ranges

/-! ## What is left of a lock -/

/-- The lock has to give way to `lock`: it has the same owner and meets its range. -/
def Hit (lock b : Lockf) : Prop := b.lfId = lock.lfId ∧ ovCase b lock ≠ .noOverlap

instance (lock b : Lockf) : Decidable (Hit lock b) := inferInstanceAs (Decidable (_ ∧ _))

/-- The remainders of `b` before and behind the range of `lock`. -/
def carve (lock : Lockf) (fresh : Nat) (b : Lockf) : List Lockf :=
  (if b.lfStart < lock.lfStart then [b.woken.upTo lock] else [])
    ++ if lock.lfEnd ≠ -1 ∧ (b.lfEnd = -1 ∨ lock.lfEnd < b.lfEnd) then
        [if b.lfStart < lock.lfStart then b.splitlock lock fresh else b.woken.fromEnd lock]
      else []

def carveOwn (lock : Lockf) (fresh : Nat) (b : Lockf) : List Lockf :=
  if Hit lock b then carve lock fresh b else [b]

def carveAll (lock : Lockf) (fresh : Nat) (l : List Lockf) : List Lockf :=
  l.flatMap (carveOwn lock fresh)

section Carve

variable {lock b : Lockf} {fresh : Nat}

/-! The cases of `lf_findoverlap`, as they bear on the remainders. -/

theorem carve_equal (h : ovCase b lock = .equal) : carve lock fresh b = [] := by
  unfold ovCase at h
  dsimp only at h
  split_ifs at h with h0 h1
  unfold carve
  rw [if_neg (by omega), if_neg (by omega)]
  rfl

theorem carve_contains (h : ovCase b lock = .contains) :
    carve lock fresh b = if b.lfStart = lock.lfStart then [b.woken.fromEnd lock]
      else (lfSplit b.woken lock fresh).1 ++ (lfSplit b.woken lock fresh).2 := by
  unfold ovCase at h
  dsimp only at h
  split_ifs at h with h0 h1 h2
  unfold carve lfSplit
  by_cases hs : b.lfStart = lock.lfStart
  · rw [if_pos hs, if_neg (by omega), if_pos (by omega), if_neg (by omega)]
    rfl
  · rw [if_neg hs, if_pos (by omega), if_neg (show ¬b.woken.lfStart = lock.lfStart from hs)]
    by_cases he : b.lfEnd = lock.lfEnd
    · rw [if_pos (show b.woken.lfEnd = lock.lfEnd from he), if_neg (by omega)]
    · rw [if_neg (show ¬b.woken.lfEnd = lock.lfEnd from he), if_pos (by omega), if_pos (by omega)]
      rfl

theorem carve_contained (h : ovCase b lock = .contained) : carve lock fresh b = [] := by
  unfold ovCase at h
  dsimp only at h
  split_ifs at h with h0 h1 h2 h3
  unfold carve
  rw [if_neg (by omega), if_neg (by omega)]
  rfl

theorem carve_startsBefore (h : ovCase b lock = .startsBefore) :
    carve lock fresh b = [b.woken.upTo lock] := by
  unfold ovCase at h
  dsimp only at h
  split_ifs at h with h0 h1 h2 h3 h4
  unfold carve
  rw [if_pos (by omega), if_neg (by omega)]
  rfl

theorem carve_endsAfter (h : ovCase b lock = .endsAfter) :
    carve lock fresh b = [b.woken.fromEnd lock] := by
  unfold ovCase at h
  dsimp only at h
  split_ifs at h with h0 h1 h2 h3 h4 h5
  unfold carve
  rw [if_neg (by omega), if_pos (by omega), if_neg (by omega)]
  rfl

/-- The remainder of no lock begins behind the last offset there is. -/
def NoWrap (lock b : Lockf) : Prop := lock.lfEnd = offMax → b.lfEnd ≠ -1

instance (lock b : Lockf) : Decidable (NoWrap lock b) := inferInstanceAs (Decidable (_ → _))

theorem offT_eq {x : Int} (h0 : -2 ^ 63 ≤ x) (h1 : x ≤ offMax) : offT x = x := by
  unfold offT
  unfold offMax at h1
  rw [Int.bmod_def]
  split_ifs <;> omega

theorem upTo_before (hb : b.Valid) (hl : lock.Ranged) (h : b.lfStart < lock.lfStart) :
    Before (b.woken.upTo lock) lock := by
  have h1 := hb.start
  have h2 := hl.start
  have he : (b.woken.upTo lock).lfEnd = lock.lfStart - 1 := offT_eq (by omega) (by omega)
  exact ⟨by omega, by omega⟩

/-- A remainder behind the range begins where it should. -/
theorem before_behind_range (hb : b.Valid) (hl : lock.Ranged) (hw : NoWrap lock b)
    (h : lock.lfEnd ≠ -1 ∧ (b.lfEnd = -1 ∨ lock.lfEnd < b.lfEnd)) {c : Lockf}
    (hc : c.lfStart = offT (lock.lfEnd + 1)) : Before lock c := by
  have h1 := hb.end_
  have h2 := hl.start
  have h3 := hl.end_
  unfold NoWrap at hw
  have he : offT (lock.lfEnd + 1) = lock.lfEnd + 1 := offT_eq (by omega) (by omega)
  exact ⟨h.1, by omega⟩

/-- The range of `c` lies in that of `b`, and the rest is taken from it. -/
structure Piece (b c : Lockf) : Prop where
  valid : c.Valid
  start : b.lfStart ≤ c.lfStart
  end_ : b.lfEnd = -1 ∨ (c.lfEnd ≠ -1 ∧ c.lfEnd ≤ b.lfEnd)
  lfId : c.lfId = b.lfId
  lfType : c.lfType = b.lfType

theorem Piece.before_left {a b c : Lockf} (h : Piece b c) (hab : Before a b) : Before a c :=
  ⟨hab.1, by have := hab.2; have := h.start; omega⟩

theorem Piece.before_right {a b c : Lockf} (h : Piece b c) (hba : Before b a) : Before c a := by
  have h1 := h.end_
  obtain ⟨h3, h4⟩ := hba
  exact ⟨by omega, by omega⟩

theorem Piece.covers {b c : Lockf} (h : Piece b c) {x : Int} (hx : c.Covers x) : b.Covers x := by
  obtain ⟨h1, h2⟩ := hx
  have h3 := h.start
  have h4 := h.end_
  exact ⟨by omega, by omega⟩

/-- A remainder, its owner and type unchanged, before or behind the range. -/
structure Remainder (lock : Lockf) (fresh : Nat) (b c : Lockf) : Prop extends Piece b c where
  lfBlkhd : c.lfBlkhd = []
  side : (Before c lock ∧ c.addr = b.addr) ∨
    (Before lock c ∧ (c.addr = b.addr ∨ (c.addr = fresh ∧ b.lfStart < lock.lfStart)))

theorem mem_carve (hb : b.Valid) (hl : lock.Ranged) (hw : NoWrap lock b) (hit : Hit lock b)
    {c : Lockf} (hc : c ∈ carve lock fresh b) : Remainder lock fresh b c := by
  have h1 := hb.start
  have h2 := hb.end_
  have h3 := hl.start
  have h4 := hl.end_
  have hover := hit.2
  rw [Ne, ovCase_noOverlap] at hover
  simp only [Before, not_or, not_and, Int.not_lt] at hover
  obtain ⟨ho1, ho2⟩ := hover
  unfold NoWrap at hw
  rcases List.mem_append.mp hc with hc | hc
  · split at hc
    · rename_i hlt
      obtain rfl := List.mem_singleton.mp hc
      have he : (b.woken.upTo lock).lfEnd = lock.lfStart - 1 := offT_eq (by omega) (by omega)
      have hs : (b.woken.upTo lock).lfStart = b.lfStart := rfl
      refine ⟨⟨⟨⟨by omega, .inr (by omega)⟩, hb.type⟩, by omega, by omega, rfl, rfl⟩, rfl, .inl ⟨?_, rfl⟩⟩
      exact ⟨by omega, by omega⟩
    · cases hc
  · split at hc
    · rename_i hgt
      have hoff : offT (lock.lfEnd + 1) = lock.lfEnd + 1 := offT_eq (by omega) (by omega)
      have key : ∀ c : Lockf, c.lfStart = lock.lfEnd + 1 → c.lfEnd = b.lfEnd → c.lfId = b.lfId →
          c.lfType = b.lfType → c.lfBlkhd = [] →
          (c.addr = b.addr ∨ (c.addr = fresh ∧ b.lfStart < lock.lfStart)) →
          Remainder lock fresh b c := by
        intro c hs he hid hty hbl haddr
        refine ⟨⟨⟨⟨by omega, by omega⟩, by rw [hty]; exact hb.type⟩, ?_, by omega, hid, hty⟩, hbl,
          .inr ⟨?_, haddr⟩⟩
        · by_cases hl1 : lock.lfEnd = -1
          · omega
          · omega
        · exact ⟨by omega, by omega⟩
      rcases List.mem_singleton.mp hc with rfl
      split
      · rename_i hlt
        exact key _ hoff rfl rfl rfl rfl (.inr ⟨rfl, hlt⟩)
      · exact key _ hoff rfl rfl rfl rfl (.inl rfl)
    · cases hc

/-- The remainders cover what `b` covers outside the range. -/
theorem carve_covers (hb : b.Valid) (hl : lock.Ranged) (hw : NoWrap lock b) (hit : Hit lock b)
    {x : Int} :
    (∃ c ∈ carve lock fresh b, c.Covers x) ↔ b.Covers x ∧ ¬lock.Covers x := by
  constructor
  · rintro ⟨c, hc, hx⟩
    have hr := mem_carve hb hl hw hit hc
    refine ⟨hr.toPiece.covers hx, fun hlx => ?_⟩
    rcases hr.side with ⟨hs, -⟩ | ⟨hs, -⟩
    · exact hs.no_common hx hlx
    · exact hs.no_common hlx hx
  · rintro ⟨⟨hx1, hx2⟩, hlx⟩
    have h2 := hb.end_
    have h3 := hl.start
    have h4 := hl.end_
    unfold NoWrap at hw
    by_cases hlt : x < lock.lfStart
    · refine ⟨b.woken.upTo lock, List.mem_append_left _ ?_, ?_⟩
      · rw [if_pos (by omega)]
        exact List.mem_singleton_self _
      · have he : (b.woken.upTo lock).lfEnd = lock.lfStart - 1 := offT_eq (by omega) (by omega)
        exact ⟨hx1, .inr (by omega)⟩
    · have hgt : lock.lfEnd ≠ -1 ∧ lock.lfEnd < x := by
        unfold Lockf.Covers at hlx
        omega
      have hoff : offT (lock.lfEnd + 1) = lock.lfEnd + 1 := offT_eq (by omega) (by omega)
      refine ⟨_, List.mem_append_right _ (by rw [if_pos (by omega)]; exact List.mem_singleton_self _), ?_⟩
      split
      · exact ⟨by show offT (lock.lfEnd + 1) ≤ x; omega, hx2⟩
      · exact ⟨by show offT (lock.lfEnd + 1) ≤ x; omega, hx2⟩

theorem carve_sorted (hb : b.Valid) (hl : lock.Ranged) (hw : NoWrap lock b) :
    (carve lock fresh b).Pairwise Before := by
  have h1 := hb.start
  have h3 := hl.end_
  have h4 := hb.end_
  unfold NoWrap at hw
  refine List.pairwise_append.mpr ⟨?_, ?_, ?_⟩
  · split
    · exact List.pairwise_singleton _ _
    · exact .nil
  · split
    · exact List.pairwise_singleton _ _
    · exact .nil
  · intro c hc d hd
    split at hc
    · rename_i hlt
      split at hd
      · rename_i hgt
        obtain rfl := List.mem_singleton.mp hc
        obtain rfl := List.mem_singleton.mp hd
        have he : (b.woken.upTo lock).lfEnd = lock.lfStart - 1 := offT_eq (by omega) (by omega)
        have hs : (b.splitlock lock fresh).lfStart = lock.lfEnd + 1 :=
          offT_eq (by omega) (by omega)
        exact ⟨by omega, by omega⟩
      · cases hd
    · cases hc

end Carve

/-! ## Lists -/

/-- The locks of one owner are in order, none meeting the next. -/
def Sorted (l : List Lockf) : Prop := l.Pairwise fun a b => a.lfId = b.lfId → Before a b

/-- Some lock of `o` on offset `x` has type `t`. -/
def Holds (l : List Lockf) (o : Caddr) (x : Int) (t : LType) : Prop :=
  ∃ b ∈ l, b.lfId = o ∧ b.Covers x ∧ b.lfType = t

/-- How an owner has locked an offset. -/
def mode (l : List Lockf) (o : Caddr) (x : Int) : Option LType :=
  (l.find? fun b => decide (b.lfId = o ∧ b.Covers x)).map (·.lfType)

section Lists

variable {l : List Lockf} {lock : Lockf} {fresh : Nat} {o : Caddr} {x : Int} {t : LType}

theorem Sorted.trichotomy (h : Sorted l) {a b : Lockf} (ha : a ∈ l) (hb : b ∈ l)
    (hid : a.lfId = b.lfId) : a = b ∨ Before a b ∨ Before b a := by
  have hall : ∀ ⦃a⦄, a ∈ l → ∀ ⦃b⦄, b ∈ l → a.lfId = b.lfId → a = b ∨ Before a b ∨ Before b a := by
    refine List.Pairwise.forall_of_forall_of_flip (fun _ _ _ => .inl rfl) ?_ ?_
    · exact h.imp fun hab hid => .inr (.inl (hab hid))
    · exact h.imp fun hab hid => .inr (.inr (hab hid.symm))
  exact hall ha hb hid

/-- An owner has one lock on an offset at most. -/
theorem Sorted.unique (h : Sorted l) {a b : Lockf} (ha : a ∈ l) (hb : b ∈ l)
    (hid : a.lfId = b.lfId) (hax : a.Covers x) (hbx : b.Covers x) : a = b := by
  rcases h.trichotomy ha hb hid with heq | hab | hba
  · exact heq
  · exact (hab.no_common hax hbx).elim
  · exact (hba.no_common hbx hax).elim

theorem mode_eq_some (h : Sorted l) : mode l o x = some t ↔ Holds l o x t := by
  unfold mode Holds
  constructor
  · intro hm
    obtain ⟨b, hb, ht⟩ := Option.map_eq_some_iff.mp hm
    have hp := List.find?_some hb
    simp only [decide_eq_true_eq] at hp
    exact ⟨b, List.mem_of_find?_eq_some hb, hp.1, hp.2, ht⟩
  · rintro ⟨b, hb, hid, hx, rfl⟩
    cases hf : l.find? fun b => decide (b.lfId = o ∧ b.Covers x) with
    | none =>
        have := List.find?_eq_none.mp hf b hb
        simp [hid, hx] at this
    | some b' =>
        have hp := List.find?_some hf
        simp only [decide_eq_true_eq] at hp
        have := h.unique hb (List.mem_of_find?_eq_some hf) (hid.trans hp.1.symm) hx hp.2
        rw [this]
        rfl

theorem mode_eq_none (h : Sorted l) : mode l o x = none ↔ ∀ t, ¬Holds l o x t := by
  constructor
  · intro hm t ht
    rw [(mode_eq_some h).mpr ht] at hm
    cases hm
  · intro hn
    cases hm : mode l o x with
    | none => rfl
    | some t => exact (hn t ((mode_eq_some h).mp hm)).elim

/-- Two lists in order with the same locks on an offset have it locked the same way. -/
theorem mode_congr {l' : List Lockf} {o' : Caddr} (h : Sorted l) (h' : Sorted l')
    (heq : ∀ t, Holds l o x t ↔ Holds l' o' x t) : mode l o x = mode l' o' x := by
  cases hm : mode l' o' x with
  | some t => rw [mode_eq_some h, heq, ← mode_eq_some h', hm]
  | none =>
      rw [mode_eq_none h]
      intro t ht
      exact (mode_eq_none h').mp hm t ((heq t).mp ht)

variable (hv : ∀ b ∈ l, b.Valid) (hl : lock.Ranged) (hw : ∀ b ∈ l, Hit lock b → NoWrap lock b)

include hv hl hw

/-- Where the locks of the carved list come from. -/
theorem mem_carveAll {c : Lockf} (hc : c ∈ carveAll lock fresh l) :
    (c ∈ l ∧ ¬Hit lock c) ∨ ∃ b ∈ l, Hit lock b ∧ Remainder lock fresh b c := by
  obtain ⟨b, hb, hcb⟩ := List.mem_flatMap.mp hc
  unfold carveOwn at hcb
  split at hcb
  · rename_i hit
    exact .inr ⟨b, hb, hit, mem_carve (hv b hb) hl (hw b hb hit) hit hcb⟩
  · rename_i hit
    obtain rfl := List.mem_singleton.mp hcb
    exact .inl ⟨hb, hit⟩

theorem carveAll_valid : ∀ c ∈ carveAll lock fresh l, c.Valid := by
  intro c hc
  rcases mem_carveAll hv hl hw hc with ⟨hc, -⟩ | ⟨b, -, -, hr⟩
  · exact hv c hc
  · exact hr.valid

/-- No lock of the owner that is left meets the range. -/
theorem carveAll_apart {c : Lockf} (hc : c ∈ carveAll lock fresh l) (hid : c.lfId = lock.lfId) :
    Before c lock ∨ Before lock c := by
  rcases mem_carveAll hv hl hw hc with ⟨-, hit⟩ | ⟨b, -, -, hr⟩
  · unfold Hit at hit
    rw [Ne, ovCase_noOverlap] at hit
    tauto
  · rcases hr.side with ⟨hs, -⟩ | ⟨hs, -⟩
    · exact .inl hs
    · exact .inr hs

theorem carveAll_holds :
    Holds (carveAll lock fresh l) o x t ↔ Holds l o x t ∧ ¬(o = lock.lfId ∧ lock.Covers x) := by
  constructor
  · rintro ⟨c, hc, rfl, hx, rfl⟩
    refine ⟨?_, fun ⟨hid, hlx⟩ => ?_⟩
    · rcases mem_carveAll hv hl hw hc with ⟨hc, -⟩ | ⟨b, hb, -, hr⟩
      · exact ⟨c, hc, rfl, hx, rfl⟩
      · exact ⟨b, hb, hr.lfId.symm, hr.toPiece.covers hx, hr.lfType.symm⟩
    · rcases carveAll_apart hv hl hw hc hid with h | h
      · exact h.no_common hx hlx
      · exact h.no_common hlx hx
  · rintro ⟨⟨b, hb, rfl, hx, rfl⟩, hout⟩
    by_cases hit : Hit lock b
    · have hbv := hv b hb
      obtain ⟨c, hc, hcx⟩ : ∃ c ∈ carve lock fresh b, c.Covers x :=
        (carve_covers hbv hl (hw b hb hit) hit).mpr ⟨hx, fun hlx => hout ⟨hit.1, hlx⟩⟩
      have hr := mem_carve hbv hl (hw b hb hit) hit hc
      refine ⟨c, List.mem_flatMap.mpr ⟨b, hb, ?_⟩, hr.lfId, hcx, hr.lfType⟩
      rw [carveOwn, if_pos hit]
      exact hc
    · refine ⟨b, List.mem_flatMap.mpr ⟨b, hb, ?_⟩, rfl, hx, rfl⟩
      rw [carveOwn, if_neg hit]
      exact List.mem_singleton_self _

theorem carveAll_sorted (hs : Sorted l) : Sorted (carveAll lock fresh l) := by
  have hpiece : ∀ b ∈ l, ∀ c ∈ carveOwn lock fresh b, Piece b c := by
    intro b hb c hc
    unfold carveOwn at hc
    split at hc
    · rename_i hit
      exact (mem_carve (hv b hb) hl (hw b hb hit) hit hc).toPiece
    · obtain rfl := List.mem_singleton.mp hc
      have := (hv c hb).end_
      exact ⟨hv c hb, by omega, by omega, rfl, rfl⟩
  refine List.pairwise_flatMap.mpr ⟨?_, ?_⟩
  · intro b hb
    unfold carveOwn
    split
    · rename_i hit
      refine (carve_sorted (hv b hb) hl (hw b hb hit)).imp ?_
      intro c d hcd _
      exact hcd
    · exact List.pairwise_singleton _ _
  · refine hs.imp_of_mem ?_
    intro a b ha hb hab c hc d hd hid
    have h1 := hpiece a ha c hc
    have h2 := hpiece b hb d hd
    exact h2.before_left (h1.before_right (hab (by rw [← h1.lfId, ← h2.lfId, hid])))

omit hv hl hw

/-! Putting a lock between those of its owner. -/

theorem holds_insert {before after : List Lockf} :
    Holds (before ++ lock :: after) o x t ↔
      Holds (before ++ after) o x t ∨ (lock.lfId = o ∧ lock.Covers x ∧ lock.lfType = t) := by
  unfold Holds
  simp only [List.mem_append, List.mem_cons]
  constructor
  · rintro ⟨b, hb | rfl | hb, h⟩
    · exact .inl ⟨b, .inl hb, h⟩
    · exact .inr h
    · exact .inl ⟨b, .inr hb, h⟩
  · rintro (⟨b, hb | hb, h⟩ | h)
    · exact ⟨b, .inl hb, h⟩
    · exact ⟨b, .inr (.inr hb), h⟩
    · exact ⟨lock, .inr (.inl rfl), h⟩

theorem sorted_insert {before after : List Lockf} (h : Sorted (before ++ after))
    (hb : ∀ b ∈ before, b.lfId = lock.lfId → Before b lock)
    (ha : ∀ b ∈ after, b.lfId = lock.lfId → Before lock b) : Sorted (before ++ lock :: after) := by
  obtain ⟨h1, h2, h3⟩ := List.pairwise_append.mp h
  refine List.pairwise_append.mpr ⟨h1, List.pairwise_cons.mpr ⟨?_, h2⟩, ?_⟩
  · intro b hba hid
    exact ha b hba hid.symm
  · intro a haa b hbb
    rcases List.mem_cons.mp hbb with rfl | hbb
    · exact hb a haa
    · exact h3 a haa b hbb

end Lists

end Obsd.Lf
