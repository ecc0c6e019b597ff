import Obsd.Runs
import Obsd.SlidingWindow

/-!
# The replay window of ESP

`sys/netinet/ip_esp.c` checks the sequence number of a packet twice.
`esp_input` asks `checkreplaywindow32` without committing anything, sends
the packet to the crypto driver, and the driver calls `esp_input_cb`, which
asks again and commits. Between the two calls any number of other packets
may arrive, be committed or be rejected, copies of the same packet among
them.

The state is one security association, the packets the crypto driver holds,
and the list of sequence numbers that have been committed, which is there
only to say what the window is for. `Holds` ties the bitmap to that list and
is kept by every step.
-/

namespace Obsd.Esp

open SlidingWindow (Recorded)

inductive Errno where
  | einval
  | eacces
  | enxio
  | enobufs
  | eperm
  | crypto
deriving DecidableEq, Repr

/-- The fields of a `struct tdb` that input processing reads. `authsize` and
`blocksize` belong to the transforms, if there are any. -/
structure Tdb where
  wnd : BitVec 8
  noreplay : Bool
  bytes : Bool
  softBytes : Bool
  curBytes : BitVec 64
  expBytes : BitVec 64
  softLimit : BitVec 64
  ivlen : Nat
  authsize : Option Nat
  blocksize : Option Nat
  rpl : BitVec 32
  bitmap : BitVec 32
deriving DecidableEq, Repr

/-- A packet: its total length, the offset of the ESP header, the sequence
number in it, and whether the authenticator it carries is the right one. -/
structure Packet where
  len : Nat
  skip : Nat
  seq : BitVec 32
  authentic : Bool
deriving DecidableEq, Repr

/-- `AH_HMAC_INITIAL_RPL`. -/
def initialRpl : BitVec 32 := 1

/-- What `esp_init` does to the window. -/
def espInit (tdb : Tdb) : Tdb := { tdb with bitmap := 0, rpl := initialRpl }

/-- The result code, and the new `*lastseq` and `*bitmap`: 1 for a counter
of 0, 2 for a very old packet, 3 for one already received. -/
def checkreplaywindow32 (seq initial lastseq window bitmap : BitVec 32) (commit : Bool) :
    Nat × BitVec 32 × BitVec 32 :=
  let checked : Nat × BitVec 32 × BitVec 32 :=
    if seq - initial = 0 then (1, lastseq, bitmap)
    else if lastseq - initial < seq - initial then
      let diff := seq - initial - (lastseq - initial)
      (0, seq - initial + initial, if diff < window then bitmap <<< diff ||| 1 else 1)
    else
      let diff := lastseq - initial - (seq - initial)
      if window ≤ diff then (2, lastseq, bitmap)
      else if bitmap &&& (1#32 <<< diff) ≠ 0 then (3, lastseq, bitmap)
      else (0, lastseq, bitmap ||| (1#32 <<< diff))
  -- without commit the work is done on local copies
  if commit then checked else (checked.1, lastseq, bitmap)

/-- The length of the header: "old" ESP carries no sequence number. -/
def hlen (tdb : Tdb) : Nat := if tdb.noreplay then 4 + tdb.ivlen else 8 + tdb.ivlen

/-- Whether the association has a replay window at all. -/
def checksReplay (tdb : Tdb) : Bool := 0 < tdb.wnd && !tdb.noreplay

def payload (tdb : Tdb) (p : Packet) : Int :=
  p.len - (p.skip + hlen tdb + tdb.authsize.getD 0 : Nat)

/-- The counters and lifetimes: the association is deleted when it has
carried its last byte. -/
def espCount (tdb : Tdb) (p : Packet) : Option Tdb :=
  let tdb := { tdb with curBytes := tdb.curBytes + BitVec.ofInt 64 (payload tdb p) }
  if tdb.bytes && tdb.expBytes ≤ tdb.curBytes then none
  else if tdb.softBytes && tdb.softLimit ≤ tdb.curBytes then some { tdb with softBytes := false }
  else some tdb

/-- `esp_input`: the association afterwards, if there still is one, and the
error; no error means the packet went to the crypto driver. `nobufs` is the
failure to get crypto descriptors. -/
def espInput (tdb : Tdb) (p : Packet) (nobufs : Bool) : Option Tdb × Option Errno :=
  if payload tdb p ≤ 0 then (some tdb, some .einval)
  else if tdb.blocksize.any (fun b => (payload tdb p).toNat &&& (b - 1) ≠ 0) then
    (some tdb, some .einval)
  else if checksReplay tdb &&
      (checkreplaywindow32 p.seq 0 tdb.rpl (tdb.wnd.setWidth 32) tdb.bitmap false).1 ≠ 0 then
    (some tdb, some .eacces)
  else match espCount tdb p with
    | none => (none, some .enxio)
    | some tdb => (some tdb, if nobufs then some .enobufs else none)

/-- What the crypto driver reports. -/
inductive Etype where
  | done
  | eagain
  | failed
deriving DecidableEq, Repr

inductive CbResult where
  | redispatched
  | accepted
  | rejected (err : Errno)
deriving DecidableEq, Repr

/-- `esp_input_cb` as far as the commit of the window. -/
def espInputCb (tdb : Option Tdb) (p : Packet) (etype : Etype) : Option Tdb × CbResult :=
  match tdb with
  | none => (none, .rejected .eperm)
  | some tdb =>
    match etype with
    | .eagain => (some tdb, .redispatched)
    | .failed => (some tdb, .rejected .crypto)
    | .done =>
      if tdb.authsize.isSome && !p.authentic then (some tdb, .rejected .eacces)
      else if checksReplay tdb then
        match checkreplaywindow32 p.seq 0 tdb.rpl (tdb.wnd.setWidth 32) tdb.bitmap true with
        | (0, rpl, bitmap) => (some { tdb with rpl := rpl, bitmap := bitmap }, .accepted)
        | (_, rpl, bitmap) =>
          (some { tdb with rpl := rpl, bitmap := bitmap }, .rejected .eacces)
      else (some tdb, .accepted)

/-- The association, the packets in the crypto driver, and the sequence
numbers committed so far, the latest first. -/
structure State where
  tdb : Option Tdb
  crypto : List Packet
  accepted : List (BitVec 32)
deriving DecidableEq, Repr

/-- A packet arrives, the crypto driver is done with the packet in place
`i`, or the association is deleted by a timer or a message. -/
inductive Event where
  | input (p : Packet) (nobufs : Bool)
  | callback (i : Nat) (etype : Etype)
  | delete
deriving DecidableEq, Repr

def arrive (s : State) (p : Packet) : Option Tdb × Option Errno → State
  | (tdb, none) => { s with tdb := tdb, crypto := p :: s.crypto }
  | (tdb, some _) => { s with tdb := tdb }

def finish (s : State) (i : Nat) (p : Packet) : Option Tdb × CbResult → State
  | (tdb, .redispatched) => { s with tdb := tdb }
  | (tdb, .accepted) =>
    { tdb := tdb, crypto := s.crypto.eraseIdx i, accepted := p.seq :: s.accepted }
  | (tdb, .rejected _) => { s with tdb := tdb, crypto := s.crypto.eraseIdx i }

def step (s : State) : Event → Option State
  | .input p nobufs =>
    match s.tdb with
    | none => some s
    | some tdb => some (arrive s p (espInput tdb p nobufs))
  | .callback i etype =>
    match s.crypto[i]? with
    | none => none
    | some p => some (finish s i p (espInputCb s.tdb p etype))
  | .delete => some { s with tdb := none }

def start (tdb : Tdb) : State := { tdb := some (espInit tdb), crypto := [], accepted := [] }

/-! ## One check of the window -/

section Check

variable {acc : List (BitVec 32)} {seq lastseq window bitmap : BitVec 32}

/-- The bit test of the source, as a bit. -/
theorem and_shift_ne_zero_iff {diff : Nat} (hd : diff < 32) :
    bitmap &&& (1#32 <<< diff) ≠ 0 ↔ bitmap.getLsbD diff = true := by
  constructor
  · intro hne
    by_contra hb
    refine hne (BitVec.eq_of_getLsbD_eq fun i _ => ?_)
    rw [BitVec.getLsbD_and, Bitmap.getLsbD_one_shiftLeft hd]
    by_cases hi : i = diff
    · subst hi
      simp [hb]
    · simp [hi]
  · intro hb h0
    have := congrArg (fun v => v.getLsbD diff) h0
    simp only [BitVec.getLsbD_and, Bitmap.getLsbD_one_shiftLeft hd, hb] at this
    simp at this

/-- What a call that commits can do: take the number, which is then new and
the window still true, or refuse it for a reason and change nothing. -/
theorem commit_cases (seq : BitVec 32) (h : Recorded acc lastseq window.toNat bitmap)
    (h1 : 1 ≤ window.toNat) (h32 : window.toNat ≤ 32) :
    (∃ lastseq' bitmap', checkreplaywindow32 seq 0 lastseq window bitmap true =
        (0, lastseq', bitmap') ∧ seq ≠ 0 ∧ seq ∉ acc ∧ lastseq ≤ lastseq' ∧
        Recorded (seq :: acc) lastseq' window.toNat bitmap') ∨
    (∃ code, checkreplaywindow32 seq 0 lastseq window bitmap true =
        (code + 1, lastseq, bitmap) ∧
        (seq = 0 ∨ seq.toNat + window.toNat ≤ lastseq.toNat ∨ seq ∈ acc)) := by
  have hsub (x : BitVec 32) : x - 0 = x := BitVec.sub_zero x
  have hadd (x : BitVec 32) : x + 0 = x := BitVec.add_zero x
  simp only [checkreplaywindow32, hsub, hadd, if_true]
  by_cases h0 : seq = 0
  · exact .inr ⟨0, by rw [if_pos h0], .inl h0⟩
  rw [if_neg h0]
  by_cases hlt : lastseq < seq
  · -- above everything seen: the window moves
    have hlt' := BitVec.lt_def.mp hlt
    have hdiff : (seq - lastseq).toNat = seq.toNat - lastseq.toNat :=
      BitVec.toNat_sub_of_le (BitVec.le_of_lt hlt)
    have hnew : seq ∉ acc := fun hm => by
      have := BitVec.le_def.mp (h.top seq hm)
      omega
    rw [if_pos hlt]
    refine .inl ⟨seq, _, rfl, h0, hnew, BitVec.le_of_lt hlt, ?_⟩
    by_cases hin : seq - lastseq < window
    · have hin' := BitVec.lt_def.mp hin
      rw [if_pos hin, BitVec.shiftLeft_eq', hdiff]
      exact h.slide h32 (by omega) hlt (by omega)
    · have hin' := BitVec.not_lt.mp hin
      rw [if_neg hin]
      exact h.jump h32 (by omega) hlt (by have := BitVec.le_def.mp hin'; omega)
  · have hle : seq ≤ lastseq := BitVec.not_lt.mp hlt
    have hdiff : (lastseq - seq).toNat = lastseq.toNat - seq.toNat := BitVec.toNat_sub_of_le hle
    rw [if_neg hlt]
    by_cases hold : window ≤ lastseq - seq
    · have := BitVec.le_def.mp hold
      exact .inr ⟨1, by rw [if_pos hold], .inr (.inl (by omega))⟩
    have hin := BitVec.lt_def.mp (BitVec.not_le.mp hold)
    rw [if_neg hold, BitVec.shiftLeft_eq', hdiff]
    have hbit : bitmap &&& (1#32 <<< (lastseq.toNat - seq.toNat)) ≠ 0 ↔
        bitmap.getLsbD (lastseq.toNat - seq.toNat) = true := and_shift_ne_zero_iff (by omega)
    by_cases hset : bitmap &&& (1#32 <<< (lastseq.toNat - seq.toNat)) ≠ 0
    · have hm := (h.bits _ (by omega)).mp (hbit.mp hset)
      rw [SlidingWindow.sub_ofNat_toNat hle] at hm
      exact .inr ⟨2, by rw [if_pos hset], .inr (.inr hm)⟩
    · have hclear := Bool.eq_false_iff.mpr fun hb => hset (hbit.mpr hb)
      rw [if_neg hset]
      exact .inl ⟨lastseq, _, rfl, h0, h.fresh (by omega) fun _ => hclear, BitVec.le_refl _,
        h.mark h32 (by omega) hle (by omega)⟩

/-- A number in the window and not yet accepted passes the check. -/
theorem check_passes (h : Recorded acc lastseq window.toNat bitmap) (h1 : 1 ≤ window.toNat)
    (h32 : window.toNat ≤ 32) (h0 : seq ≠ 0) (hnew : seq ∉ acc)
    (hin : lastseq.toNat < seq.toNat + window.toNat) :
    (checkreplaywindow32 seq 0 lastseq window bitmap true).1 = 0 := by
  rcases commit_cases seq h h1 h32 with ⟨l, b, heq, -⟩ | ⟨c, -, hwhy⟩
  · rw [heq]
  · rcases hwhy with h | h | h
    · exact absurd h h0
    · omega
    · exact absurd h hnew

end Check

/-! ## The steps -/

/-- Two associations with the same window in the same state. -/
def SameWindow (t t' : Tdb) : Prop :=
  t'.wnd = t.wnd ∧ t'.noreplay = t.noreplay ∧ t'.rpl = t.rpl ∧ t'.bitmap = t.bitmap

theorem espCount_same {t t' : Tdb} {p : Packet} (h : espCount t p = some t') :
    SameWindow t t' := by
  simp only [espCount] at h
  split at h
  · cases h
  · split at h
    all_goals
      obtain rfl := Option.some.inj h
      exact ⟨rfl, rfl, rfl, rfl⟩

/-- Nothing that happens before the crypto moves the window. -/
theorem espInput_same {t t' : Tdb} {p : Packet} {nobufs : Bool}
    (h : (espInput t p nobufs).1 = some t') : SameWindow t t' := by
  rw [espInput] at h
  split at h
  · obtain rfl := Option.some.inj h
    exact ⟨rfl, rfl, rfl, rfl⟩
  split at h
  · obtain rfl := Option.some.inj h
    exact ⟨rfl, rfl, rfl, rfl⟩
  split at h
  · obtain rfl := Option.some.inj h
    exact ⟨rfl, rfl, rfl, rfl⟩
  cases hc : espCount t p with
  | none =>
      rw [hc] at h
      cases h
  | some u =>
      rw [hc] at h
      obtain rfl := Option.some.inj h
      exact espCount_same hc

@[simp] theorem arrive_accepted (s : State) (p : Packet) (r : Option Tdb × Option Errno) :
    (arrive s p r).accepted = s.accepted := by
  rcases r with ⟨t, _ | e⟩ <;> rfl

@[simp] theorem arrive_tdb (s : State) (p : Packet) (r : Option Tdb × Option Errno) :
    (arrive s p r).tdb = r.1 := by
  rcases r with ⟨t, _ | e⟩ <;> rfl

theorem toNat_window (t : Tdb) : (t.wnd.setWidth 32).toNat = t.wnd.toNat := by
  rw [BitVec.toNat_setWidth]
  omega

/-- The window of the association tells the truth about what was committed. -/
def WindowOk (acc : List (BitVec 32)) (wnd : BitVec 8) (t : Tdb) : Prop :=
  t.wnd = wnd ∧ t.noreplay = false ∧ Recorded acc t.rpl wnd.toNat t.bitmap

theorem WindowOk.same {acc : List (BitVec 32)} {wnd : BitVec 8} {t t' : Tdb}
    (h : WindowOk acc wnd t) (hs : SameWindow t t') : WindowOk acc wnd t' := by
  obtain ⟨hw, hn, hr, hb⟩ := hs
  refine ⟨hw.trans h.1, hn.trans h.2.1, ?_⟩
  rw [hr, hb]
  exact h.2.2

theorem WindowOk.checksReplay {acc : List (BitVec 32)} {wnd : BitVec 8} {t : Tdb}
    (h : WindowOk acc wnd t) (h1 : 1 ≤ wnd.toNat) : checksReplay t = true := by
  have hpos : 0#8 < t.wnd := BitVec.lt_def.mpr (by rw [h.1]; exact h1)
  simp [Esp.checksReplay, hpos, h.2.1]

/-- What a call of `esp_input_cb` can do to an association whose window is
true: leave it, or accept the packet, whose number is then a new one. -/
theorem espInputCb_cases {acc : List (BitVec 32)} {wnd : BitVec 8} {t : Tdb} (p : Packet)
    (etype : Etype) (h : WindowOk acc wnd t) (h1 : 1 ≤ wnd.toNat) (h32 : wnd.toNat ≤ 32) :
    (∃ t', espInputCb (some t) p etype = (some t', .accepted) ∧ p.seq ≠ 0 ∧ p.seq ∉ acc ∧
        t.rpl ≤ t'.rpl ∧ WindowOk (p.seq :: acc) wnd t') ∨
    (∃ r, espInputCb (some t) p etype = (some t, r) ∧ r ≠ .accepted) := by
  have hcheck := h.checksReplay h1
  obtain ⟨hw, hn, hrec⟩ := h
  cases etype with
  | eagain => exact .inr ⟨.redispatched, rfl, CbResult.noConfusion⟩
  | failed => exact .inr ⟨.rejected .crypto, rfl, CbResult.noConfusion⟩
  | done =>
      simp only [espInputCb]
      by_cases hauth : (t.authsize.isSome && !p.authentic) = true
      · exact .inr ⟨.rejected .eacces, by rw [if_pos hauth], CbResult.noConfusion⟩
      rw [if_neg hauth, if_pos hcheck]
      have hwin : (t.wnd.setWidth 32).toNat = wnd.toNat := by rw [toNat_window, hw]
      rw [← hwin] at hrec h1 h32
      rcases commit_cases p.seq hrec h1 h32 with
        ⟨l, b, heq, h0, hnew, hle, hrec'⟩ | ⟨c, heq, -⟩
      · rw [heq]
        rw [hwin] at hrec'
        exact .inl ⟨_, rfl, h0, hnew, hle, hw, hn, hrec'⟩
      · rw [heq]
        exact .inr ⟨.rejected .eacces, rfl, CbResult.noConfusion⟩

/-! ## Runs -/

/-- The invariant: committed numbers are distinct and none is 0, and the
window, while there is one, is true of them. -/
structure Holds (wnd : BitVec 8) (s : State) : Prop where
  nodup : s.accepted.Nodup
  zero : (0 : BitVec 32) ∉ s.accepted
  window : ∀ t, s.tdb = some t → WindowOk s.accepted wnd t

theorem start_holds (sa : Tdb) (hrep : sa.noreplay = false) : Holds sa.wnd (start sa) where
  nodup := List.nodup_nil
  zero := List.not_mem_nil
  window := by
    rintro t ⟨⟩
    exact ⟨rfl, hrep, Recorded.nil⟩

/-- `s'` is later than `s`: what was committed stays so and the window has
not moved back. -/
structure Later (s s' : State) : Prop where
  accepted : s.accepted ⊆ s'.accepted
  rpl : ∀ t t', s.tdb = some t → s'.tdb = some t' → t.rpl ≤ t'.rpl
  gone : s.tdb = none → s'.tdb = none

theorem Later.refl (s : State) : Later s s where
  accepted := List.Subset.refl _
  rpl := fun t t' h h' => by
    obtain rfl := Option.some.inj (h.symm.trans h')
    exact BitVec.le_refl _
  gone := id

theorem Later.trans {s s' s'' : State} (h : Later s s') (h' : Later s' s'') : Later s s'' where
  accepted := List.Subset.trans h.accepted h'.accepted
  rpl := fun t t'' ht ht'' => by
    cases ht' : s'.tdb with
    | none =>
        rw [h'.gone ht'] at ht''
        cases ht''
    | some t' => exact BitVec.le_trans (h.rpl t t' ht ht') (h'.rpl t' t'' ht' ht'')
  gone := fun hg => h'.gone (h.gone hg)

section Step

variable {wnd : BitVec 8} {s s' : State}

/-- An association with the same window, and nothing committed. -/
theorem holds_later_of_same (h : Holds wnd s) (hacc : s'.accepted = s.accepted)
    (ht : ∀ t', s'.tdb = some t' → ∃ t, s.tdb = some t ∧ SameWindow t t') :
    Holds wnd s' ∧ Later s s' := by
  refine ⟨⟨hacc ▸ h.nodup, hacc ▸ h.zero, fun t' ht' => ?_⟩, ⟨?_, fun t t' h1 h2 => ?_, fun hg => ?_⟩⟩
  · obtain ⟨t, hst, hsame⟩ := ht t' ht'
    rw [hacc]
    exact (h.window t hst).same hsame
  · rw [hacc]
    exact List.Subset.refl _
  · obtain ⟨u, hu, hsame⟩ := ht t' h2
    obtain rfl := Option.some.inj (h1.symm.trans hu)
    rw [hsame.2.2.1]
    exact BitVec.le_refl _
  · cases hs' : s'.tdb with
    | none => rfl
    | some t' =>
        obtain ⟨t, hst, -⟩ := ht t' hs'
        rw [hg] at hst
        cases hst

theorem step_callback (h : Holds wnd s) (h1 : 1 ≤ wnd.toNat) (h32 : wnd.toNat ≤ 32)
    (i : Nat) (p : Packet) (etype : Etype) :
    Holds wnd (finish s i p (espInputCb s.tdb p etype)) ∧
      Later s (finish s i p (espInputCb s.tdb p etype)) := by
  cases ht : s.tdb with
  | none => exact holds_later_of_same h rfl fun t' ht' => by cases ht'
  | some t =>
      rcases espInputCb_cases p etype (h.window t ht) h1 h32 with
        ⟨t', heq, h0, hnew, hle, hok⟩ | ⟨r, heq, hr⟩
      · rw [heq]
        refine ⟨⟨List.nodup_cons.mpr ⟨hnew, h.nodup⟩, ?_, ?_⟩, ⟨?_, ?_, ?_⟩⟩
        · exact fun hm => (List.mem_cons.mp hm).elim (fun e => h0 e.symm) h.zero
        · rintro u ⟨⟩
          exact hok
        · exact List.subset_cons_self _ _
        · intro u u' hu hu'
          obtain rfl := Option.some.inj (ht.symm.trans hu)
          obtain rfl := Option.some.inj hu'
          exact hle
        · intro hg
          rw [ht] at hg
          cases hg
      · rw [heq]
        have hsame : ∀ t', some t = some t' → ∃ u, s.tdb = some u ∧ SameWindow u t' := by
          rintro t' ⟨⟩
          exact ⟨t, ht, rfl, rfl, rfl, rfl⟩
        cases r with
        | accepted => exact absurd rfl hr
        | redispatched => exact holds_later_of_same h rfl hsame
        | rejected e => exact holds_later_of_same h rfl hsame

theorem step_holds {ev : Event} (h1 : 1 ≤ wnd.toNat) (h32 : wnd.toNat ≤ 32) (h : Holds wnd s)
    (hs : step s ev = some s') : Holds wnd s' ∧ Later s s' := by
  cases ev with
  | input p nobufs =>
      cases ht : s.tdb with
      | none =>
          simp only [step, ht] at hs
          obtain rfl := Option.some.inj hs
          exact ⟨h, .refl _⟩
      | some t =>
          simp only [step, ht] at hs
          obtain rfl := Option.some.inj hs
          refine holds_later_of_same h (arrive_accepted ..) fun t' ht' => ?_
          rw [arrive_tdb] at ht'
          exact ⟨t, ht, espInput_same ht'⟩
  | callback i etype =>
      simp only [step] at hs
      cases hp : s.crypto[i]? with
      | none =>
          rw [hp] at hs
          cases hs
      | some p =>
          rw [hp] at hs
          obtain rfl := Option.some.inj hs
          exact step_callback h h1 h32 i p etype
  | delete =>
      obtain rfl := Option.some.inj hs
      exact holds_later_of_same h rfl fun t' ht' => by cases ht'

end Step

/-- Every interleaving keeps the window true and never moves it back. -/
theorem runs_holds {wnd : BitVec 8} {s s' : State} (h1 : 1 ≤ wnd.toNat) (h32 : wnd.toNat ≤ 32)
    (h : Runs step (fun _ _ => True) s s') (hs : Holds wnd s) : Holds wnd s' ∧ Later s s' := by
  have hkept : ∀ u ev u', True → step u ev = some u' → Holds wnd u ∧ Later s u →
      Holds wnd u' ∧ Later s u' := by
    rintro u ev u' - hstep ⟨hu, hlater⟩
    obtain ⟨hu', hl⟩ := step_holds h1 h32 hu hstep
    exact ⟨hu', hlater.trans hl⟩
  exact @Runs.invariant _ _ _ _ _ _ (fun u => Holds wnd u ∧ Later s u) hkept h ⟨hs, .refl s⟩

/-- Packets arrive and are committed in any order. No number is committed
twice and 0 never is; bit `d` of the bitmap is set exactly if the number `d`
below the last one has been committed; and an authentic packet with a number
inside the window that was not committed before is committed, having passed
the check without commit whenever it arrived. -/
theorem replay_window_exact (sa : Tdb) (h1 : 1 ≤ sa.wnd.toNat) (h32 : sa.wnd.toNat ≤ 32)
    (hrep : sa.noreplay = false) {s₀ s : State}
    (h₀ : Runs step (fun _ _ => True) (start sa) s₀) (h : Runs step (fun _ _ => True) s₀ s) :
    s.accepted.Nodup ∧ 0 ∉ s.accepted ∧
    (∀ tdb, s.tdb = some tdb → ∀ d < sa.wnd.toNat,
      tdb.bitmap.getLsbD d = true ↔ tdb.rpl - BitVec.ofNat 32 d ∈ s.accepted) ∧
    (∀ tdb p, s.tdb = some tdb → p.authentic = true → p.seq ≠ 0 → p.seq ∉ s.accepted →
      tdb.rpl.toNat < p.seq.toNat + sa.wnd.toNat →
      (∀ tdb₀, s₀.tdb = some tdb₀ → (checkreplaywindow32 p.seq 0 tdb₀.rpl
        (tdb₀.wnd.setWidth 32) tdb₀.bitmap false).1 = 0) ∧
      ∀ i, s.crypto[i]? = some p → ∃ s', step s (.callback i .done) = some s' ∧
        s'.accepted = p.seq :: s.accepted) := by
  have hs₀ := (runs_holds h1 h32 h₀ (start_holds sa hrep)).1
  obtain ⟨hs, hlater⟩ := runs_holds h1 h32 h hs₀
  refine ⟨hs.nodup, hs.zero, fun t ht => (hs.window t ht).2.2.bits, ?_⟩
  intro t p ht hauth h0 hnew hin
  constructor
  · -- what is in the window now was in it, or above it, when the packet came
    intro t₀ ht₀
    obtain ⟨hw, -, hrec⟩ := hs₀.window t₀ ht₀
    have hle := BitVec.le_def.mp (hlater.rpl t₀ t ht₀ ht)
    have hwin : (t₀.wnd.setWidth 32).toNat = sa.wnd.toNat := by rw [toNat_window, hw]
    rw [← hwin] at hrec h1 h32 hin
    exact check_passes hrec h1 h32 h0 (fun hm => hnew (hlater.accepted hm)) (by omega)
  · intro i hi
    refine ⟨_, by rw [step, hi], ?_⟩
    obtain ⟨hw, hn, hrec⟩ := hs.window t ht
    have hwin : (t.wnd.setWidth 32).toNat = sa.wnd.toNat := by rw [toNat_window, hw]
    have hpass := check_passes (hwin.symm ▸ hrec) (hwin.symm ▸ h1) (hwin.symm ▸ h32) h0 hnew
      (hwin.symm ▸ hin)
    have hcheck := (hs.window t ht).checksReplay h1
    rw [ht]
    rcases hr : checkreplaywindow32 p.seq 0 t.rpl (t.wnd.setWidth 32) t.bitmap true with ⟨c, l, b⟩
    rw [hr] at hpass
    obtain rfl : c = 0 := hpass
    simp only [espInputCb, hauth, Bool.not_true, Bool.and_false, Bool.false_eq_true, if_false,
      hcheck, if_true, hr]
    rfl

/-- An association with a window of 4 numbers. -/
def smallSa : Tdb where
  wnd := 4
  noreplay := false
  bytes := false
  softBytes := false
  curBytes := 0
  expBytes := 0
  softLimit := 0
  ivlen := 8
  authsize := some 12
  blocksize := some 8
  rpl := 0
  bitmap := 0

def packet (seq : BitVec 32) : Packet := { len := 56, skip := 20, seq := seq, authentic := true }

/-- Packet 6 comes and is committed while packet 4, which came first, is
still in the crypto driver; 4 is then committed too. -/
theorem replay_window_exact_overtaken : ∃ s s',
    Runs step (fun _ _ => True) (start smallSa) s ∧ s.accepted = [6] ∧
    step s (.callback 0 .done) = some s' ∧ s'.accepted = [4, 6] := by
  have hrun (evs : List Event) {s s' : State}
      (h : Runs.exec step (fun _ _ => true) evs s = some s') :
      Runs step (fun _ _ => True) s s' := Runs.of_exec (fun _ _ _ => trivial) evs h
  have h₀ := hrun [.input (packet 4) false] (s := start smallSa) rfl
  have h := hrun [.input (packet 6) false, .callback 0 .done] (s := arrive (start smallSa)
    (packet 4) (some { espInit smallSa with curBytes := 8 }, none)) rfl
  obtain ⟨-, -, -, hacc⟩ := replay_window_exact smallSa (by decide) (by decide) rfl h₀ h
  obtain ⟨-, hcb⟩ := hacc _ (packet 4) rfl rfl (by decide) (by decide) (by decide)
  obtain ⟨s', hs', heq⟩ := hcb 0 rfl
  exact ⟨_, s', h₀.trans h, rfl, hs', heq⟩

end Obsd.Esp
