import Obsd.IpFragmentTiles

/-!
# Fragments and reassembly

The fragments that `ip_fragment` makes of a whole packet are handed to
`ip_reass` in any order. The queue holds those that have arrived, in the
order of the row they form, and the last one to arrive completes it.
-/

namespace Obsd.IpFragment

open IpReass (Ipqent Ipq Key State Packet Fits Before ipReass ipMf)

variable {P : List UInt8} {e : Ipqent} {T Q : List Ipqent} {key : Key}

/-! ## A row of entries -/

/-- The entries are the payload from `pos` on, cut into pieces. -/
def Row (P : List UInt8) : Nat → List Ipqent → Prop
  | pos, [] => pos = P.length
  | pos, e :: rest => e.off = pos ∧ 0 < e.len ∧ Fits P e ∧ Row P (pos + e.len) rest

theorem Row.mem {pos : Nat} (h : Row P pos T) (he : e ∈ T) :
    pos ≤ e.off ∧ 0 < e.len ∧ Fits P e := by
  induction T generalizing pos with
  | nil => exact absurd he List.not_mem_nil
  | cons a T ih =>
    obtain ⟨hoff, hlen, hfits, hrest⟩ := h
    obtain rfl | he := List.mem_cons.mp he
    · exact ⟨hoff.ge, hlen, hfits⟩
    · obtain ⟨hle, hpos, hf⟩ := ih hrest he
      exact ⟨by omega, hpos, hf⟩

theorem Row.sorted {pos : Nat} (h : Row P pos T) : T.Pairwise Before := by
  induction T generalizing pos with
  | nil => exact List.Pairwise.nil
  | cons a T ih =>
    obtain ⟨hoff, -, -, hrest⟩ := h
    refine List.pairwise_cons.mpr ⟨fun b hb => ?_, ih hrest⟩
    have hle := (hrest.mem hb).1
    rw [Before, Ipqent.stop, hoff]
    exact hle

theorem Row.nodup {pos : Nat} (h : Row P pos T) : T.Nodup := by
  refine h.sorted.imp_of_mem ?_
  rintro a b ha - hbefore rfl
  have hpos := (h.mem ha).2.1
  unfold Before Ipqent.stop at hbefore
  omega

theorem Row.scan {pos : Nat} (h : Row P pos T) : IpReass.scan pos T = some P.length := by
  induction T generalizing pos with
  | nil => exact congrArg some h
  | cons a T ih =>
    obtain ⟨hoff, -, -, hrest⟩ := h
    rw [IpReass.scan, if_neg (not_not_intro hoff)]
    exact ih hrest

/-- Entries of the row without a gap are the row up to somewhere. -/
theorem Row.prefix_of_scan {pos n : Nat} (h : Row P pos T) (hsub : Q.Sublist T)
    (hscan : IpReass.scan pos Q = some n) : Q <+: T := by
  induction hsub generalizing pos with
  | slnil => exact List.prefix_rfl
  | @cons Q T a hsub ih =>
    obtain ⟨hoff, hlen, -, hrest⟩ := h
    cases Q with
    | nil => exact List.nil_prefix
    | cons q Q =>
      have hq := (hrest.mem (hsub.subset List.mem_cons_self)).1
      rw [IpReass.scan, if_pos (by omega)] at hscan
      cases hscan
  | @cons_cons Q T a hsub ih =>
    obtain ⟨hoff, -, -, hrest⟩ := h
    rw [IpReass.scan, if_neg (not_not_intro hoff)] at hscan
    exact List.prefix_cons_inj a |>.mpr (ih hrest hscan)

/-- As long as something is missing the queue waits. -/
theorem Row.wait (h : Row P 0 T) (hsub : Q.Sublist T) (hne : Q ≠ T) :
    IpReass.complete key Q = .wait := by
  cases Q with
  | nil => rfl
  | cons first rest =>
    rw [IpReass.complete]
    cases hscan : IpReass.scan 0 (first :: rest) with
    | none => rfl
    | some n =>
      obtain ⟨R, hR⟩ := h.prefix_of_scan hsub hscan
      have hlast : (first :: rest).getLast? = some (rest.getLast?.getD first) := List.getLast?_cons
      obtain ⟨last, hl⟩ : ∃ l, rest.getLast?.getD first = l := ⟨_, rfl⟩
      rw [hl] at hlast
      have hmem : last ∈ first :: rest := List.mem_of_getLast? hlast
      cases R with
      | nil =>
        rw [List.append_nil] at hR
        exact absurd hR hne
      | cons r R =>
        -- What comes behind the last one is not empty.
        have hr : r ∈ T := hR ▸ List.mem_append_right _ List.mem_cons_self
        have hbefore : Before last r := by
          have hsorted := h.sorted
          rw [← hR] at hsorted
          exact (List.pairwise_append.mp hsorted).2.2 last hmem r List.mem_cons_self
        obtain ⟨-, hpos, hfits⟩ := h.mem hr
        obtain ⟨-, -, hlfits⟩ := h.mem (hR ▸ List.mem_append_left _ hmem : last ∈ T)
        have hmff : last.mff = true := by
          rw [hlfits.mff, decide_eq_true_iff]
          have hstop := hfits.stop
          unfold Before at hbefore
          unfold Ipqent.stop at *
          omega
        rw [hl]
        exact if_pos hmff

/-- The whole row is the payload. -/
theorem Row.done {first : Ipqent} {rest : List Ipqent} (h : Row P 0 (first :: rest))
    (hfit : P.length + first.ip.hlen ≤ IpReass.ipMaxpacket) :
    ∃ m, IpReass.complete key (first :: rest) = .done m ∧ m.data = P := by
  have hlast : (first :: rest).getLast? = some (rest.getLast?.getD first) := List.getLast?_cons
  obtain ⟨last, hl⟩ : ∃ l, rest.getLast?.getD first = l := ⟨_, rfl⟩
  rw [hl] at hlast
  have hfits : ∀ a ∈ first :: rest, Fits P a := fun a ha => (h.mem ha).2.2
  obtain ⟨-, hdata, hstop⟩ := IpReass.scan_data _ hfits h.scan
  have hmff : last.mff = false := by
    rw [(hfits last (List.mem_of_getLast? hlast)).mff, hstop last hlast, decide_eq_false_iff_not]
    exact Nat.lt_irrefl _
  rw [Nat.sub_zero, List.drop_zero, List.take_length] at hdata
  rw [IpReass.complete, h.scan]
  dsimp only
  rw [hl, hmff, if_neg (by decide), if_neg (by omega)]
  exact ⟨_, rfl, hdata⟩

/-- A missing entry of the row goes to its place, and nothing is
trimmed. -/
theorem Row.place {A B Q₁ Q₂ : List Ipqent} (h : Row P 0 (A ++ e :: B)) (h₁ : Q₁.Sublist A)
    (h₂ : Q₂.Sublist B) : IpReass.place (Q₁ ++ Q₂) e = some (Q₁ ++ e :: Q₂, 0) := by
  obtain ⟨-, hafter, hbefore⟩ := List.pairwise_append.mp h.sorted
  have hA : ∀ a ∈ Q₁, a.stop ≤ e.off := fun a ha =>
    hbefore a (h₁.subset ha) e List.mem_cons_self
  have hB : ∀ b ∈ Q₂, e.stop ≤ b.off := fun b hb =>
    (List.pairwise_cons.mp hafter).1 b (h₂.subset hb)
  have hpos := (h.mem (List.mem_append_right A List.mem_cons_self)).2.1
  refine IpReass.place_between hA fun b hb => ⟨hB b hb, ?_⟩
  have hle := hB b hb
  unfold Ipqent.stop at hle
  omega

/-- The fragments of one packet agree on congestion. -/
theorem ecn_same {first : Ipqent} (h : e.ip.tos = first.ip.tos) :
    IpReass.ecn e first = some first := by
  unfold IpReass.ecn
  rw [h]
  dsimp only
  split
  · rename_i hce
    exact absurd (hce.1.symm.trans hce.2) (by decide)
  split
  · rename_i hnot
    exact absurd hnot.1 hnot.2
  split
  · rename_i hce
    exact absurd hce.1 hce.2
  · rfl

/-! ## Any order -/

/-- Entries are handed to ip_reass one after the other, and it returns a
packet or none for each. -/
def feed : List Ipqent → State → Option (State × List (Option Packet))
  | [], s => some (s, [])
  | e :: rest, s => do
    let (s, out) ← ipReass ⟨s.ipq, s.frags + 1⟩ e true
    let (s, outs) ← feed rest s
    some (s, out :: outs)

/-- What the entries of a row have in common. -/
structure Alike (key : Key) (tos : BitVec 8) (T : List Ipqent) : Prop where
  key : ∀ e ∈ T, e.ip.key = key
  tos : ∀ e ∈ T, e.ip.tos = tos

section

variable {tos : BitVec 8} (h : Row P 0 T) (halike : Alike key tos T)
  (hfit : ∀ e ∈ T, e.off = 0 → P.length + e.ip.hlen ≤ IpReass.ipMaxpacket)
include h halike hfit

/-- The entries that are missing complete the queue, the last of them. -/
theorem feed_rest (l : List Ipqent) (hl : l ≠ []) (hperm : (l ++ Q).Perm T) (hsub : Q.Sublist T)
    (hQ : Q ≠ []) (ttl : BitVec 8) (ipq : List Ipq) (frags : Int) :
    ∃ s m, feed l ⟨⟨key, ttl, Q⟩ :: ipq, frags⟩
        = some (s, List.replicate (l.length - 1) none ++ [some m]) ∧ m.data = P := by
  induction l generalizing Q frags with
  | nil => exact absurd rfl hl
  | cons e l ih =>
    have he : e ∈ T := hperm.subset List.mem_cons_self
    have hnot : e ∉ Q := by
      have hnodup := hperm.nodup_iff.mpr h.nodup
      exact fun hmem => (List.nodup_cons.mp hnodup).1 (List.mem_append_right _ hmem)
    obtain ⟨A, B, rfl⟩ := List.append_of_mem he
    obtain ⟨Q₁, Q₂, rfl, h₁, h₂⟩ := List.sublist_append_iff.mp hsub
    have h₂' : Q₂.Sublist B := by
      obtain h₂ | ⟨r, rfl, -⟩ := List.sublist_cons_iff.mp h₂
      · exact h₂
      · exact absurd (List.mem_append_right _ List.mem_cons_self) hnot
    have hsub' : (Q₁ ++ e :: Q₂).Sublist (A ++ e :: B) := h₁.append (h₂'.cons_cons e)
    have hperm' : (l ++ (Q₁ ++ e :: Q₂)).Perm (A ++ e :: B) := by
      refine List.Perm.trans ?_ hperm
      rw [← List.append_assoc]
      refine List.perm_middle.trans ?_
      rw [List.append_assoc, List.cons_append]
    obtain ⟨first, rest, hsplit⟩ := List.exists_cons_of_ne_nil hQ
    have hecn : IpReass.ecn e first = some first := by
      refine ecn_same ?_
      rw [halike.tos e he, halike.tos first (hsub.subset (hsplit ▸ List.mem_cons_self))]
    have hplace := h.place h₁ h₂'
    have hfind : (⟨key, ttl, Q₁ ++ Q₂⟩ :: ipq).find? (fun fp => fp.key = e.ip.key)
        = some ⟨key, ttl, Q₁ ++ Q₂⟩ :=
      List.find?_cons_of_pos (decide_eq_true (halike.key e he).symm)
    have hreplace : ∀ new, IpReass.replace e.ip.key new (⟨key, ttl, Q₁ ++ Q₂⟩ :: ipq)
        = new.toList ++ ipq := fun new => if_pos (halike.key e he).symm
    rw [feed, ipReass]
    rw [hfind]
    rw [hsplit] at hplace ⊢
    dsimp only
    rw [hecn]
    dsimp only
    rw [hplace]
    dsimp only
    cases l with
    | nil =>
      -- Nothing is missing any more.
      have hall : Q₁ ++ e :: Q₂ = A ++ e :: B := by
        refine hsub'.eq_of_length ?_
        exact hperm'.length_eq
      rw [hall]
      obtain ⟨head, tail, hT⟩ := List.exists_cons_of_ne_nil (List.append_ne_nil_of_right_ne_nil A
        (List.cons_ne_nil e B))
      rw [hT] at h hfit ⊢
      obtain ⟨m, hdone, hdata⟩ : ∃ m, IpReass.complete e.ip.key (head :: tail) = .done m
          ∧ m.data = P := h.done (hfit head List.mem_cons_self h.1)
      rw [hdone]
      exact ⟨_, m, rfl, hdata⟩
    | cons e' l =>
      have hne : Q₁ ++ e :: Q₂ ≠ A ++ e :: B := by
        intro heq
        rw [heq] at hperm'
        have hlength := hperm'.length_eq
        rw [List.length_append, List.length_cons] at hlength
        omega
      rw [h.wait hsub' hne]
      rw [← hsplit, hreplace]
      obtain ⟨s, m, hrest, hdata⟩ := ih (List.cons_ne_nil e' l) hperm' hsub'
        (List.append_ne_nil_of_right_ne_nil Q₁ (List.cons_ne_nil e Q₂))
        (frags + 1 - ((0 : Nat) : Int))
      refine ⟨s, m, ?_, hdata⟩
      show (feed (e' :: l) ⟨⟨key, ttl, Q₁ ++ e :: Q₂⟩ :: ipq, frags + 1 - ((0 : Nat) : Int)⟩).bind
        _ = _
      rw [hrest]
      rfl

/-- Handed over in any order, the entries give the payload with the last of
them. -/
theorem feed_any_order {l : List Ipqent} (hperm : l.Perm T) (htwo : 2 ≤ T.length) (s : State)
    (hnew : ∀ fp ∈ s.ipq, fp.key ≠ key) :
    ∃ s' m, feed l s = some (s', List.replicate (T.length - 1) none ++ [some m]) ∧ m.data = P := by
  have hlength := hperm.length_eq
  match l, hperm, hlength with
  | [], _, hlength => exact absurd hlength (by rw [List.length_nil]; omega)
  | [e], _, hlength => exact absurd hlength (by rw [List.length_singleton]; omega)
  | e :: e' :: l, hperm, hlength =>
    have he : e ∈ T := hperm.subset List.mem_cons_self
    have hsub : [e].Sublist T := List.singleton_sublist.mpr he
    have hne : [e] ≠ T := by
      rintro rfl
      rw [List.length_singleton] at htwo
      exact absurd htwo (by decide)
    have hfind : s.ipq.find? (fun fp => fp.key = e.ip.key) = none := by
      refine List.find?_eq_none.mpr fun fp hfp => ?_
      rw [halike.key e he]
      simpa using hnew fp hfp
    obtain ⟨s', m, hrest, hdata⟩ := feed_rest h halike hfit (e' :: l) (List.cons_ne_nil e' l)
      (Q := [e]) ((List.perm_append_singleton e (e' :: l)).trans hperm) hsub (List.cons_ne_nil e [])
      60#8 s.ipq (s.frags + 1)
    refine ⟨s', m, ?_, hdata⟩
    rw [feed, ipReass]
    rw [hfind]
    rw [if_pos rfl, h.wait hsub hne]
    rw [halike.key e he]
    show (feed (e' :: l) ⟨⟨key, 60#8, [e]⟩ :: s.ipq, s.frags + 1⟩).bind _ = _
    rw [hrest, ← hlength]
    rfl

end

/-! ## The fragments of a packet -/

/-- The entry that ipv4_input makes of a fragment. -/
def Pkt.entry (f : Pkt) : Ipqent := IpReass.entry ⟨f.ip, 0, f.data⟩

theorem FragAt.agrees {m f : Pkt} {mtu pos : Nat} {last : Bool} (h : FragAt m mtu pos last f)
    (h0 : m.offset = 0) (hmf : m.mf = false) (hfit : m.data.length ≤ 2 ^ 16)
    (hlast : last = true ↔ pos + f.data.length = m.data.length) :
    f.offset = pos ∧ IpReass.Agrees m.data ⟨f.ip, 0, f.data⟩ := by
  have hlength := congrArg List.length h.data
  rw [List.length_take, List.length_drop] at hlength
  have hne := h.nonempty
  have hin : m.offset + pos < 2 ^ 16 := by omega
  have hoff : f.offset = pos := by
    rw [h.offset hin, h0, Nat.zero_add]
  have hoff' : IpReass.Packet.offset ⟨f.ip, 0, f.data⟩ = pos := hoff
  refine ⟨hoff, rfl, h.wf.len, ?_, ?_, ?_⟩
  · rw [hoff']
    show pos + f.data.length ≤ _
    omega
  · rw [hoff']
    exact h.data
  · rw [hoff']
    show f.ip.off &&& ipMf ≠ 0 ↔ pos + f.data.length < m.data.length
    have hmore := h.mf hin
    rw [hmf, Bool.false_or] at hmore
    rw [← decide_eq_true_iff (p := f.ip.off &&& ipMf ≠ 0)]
    show f.mf = true ↔ _
    rw [hmore, Bool.not_eq_true', ← Bool.not_eq_true, hlast]
    omega

theorem Fits.entry_len {m : Pkt} (h : Fits P m.entry) : m.entry.len = m.data.length := by
  have hdata : m.data = (P.drop m.entry.off).take m.entry.len := h.data
  have hstop := h.stop
  unfold Ipqent.stop at hstop
  rw [hdata, List.length_take, List.length_drop]
  omega

/-- The last fragment ends with the data. -/
theorem Tile.isEmpty_iff {m : Pkt} {mtu pos : Nat} {frags : List Pkt} (h : Tile m mtu pos frags) :
    frags.isEmpty = true ↔ pos = m.data.length := by
  cases frags with
  | nil => exact iff_of_true rfl h
  | cons f rest =>
    refine iff_of_false Bool.false_ne_true fun hend => ?_
    have hne := h.1.nonempty
    rw [h.1.data, hend, List.drop_length, List.take_nil] at hne
    exact absurd hne (by decide)

theorem Tile.row {m : Pkt} {mtu pos : Nat} {frags : List Pkt} (h : Tile m mtu pos frags)
    (h0 : m.offset = 0) (hmf : m.mf = false) (hfit : m.data.length ≤ 2 ^ 16) :
    Row m.data pos (frags.map Pkt.entry) := by
  induction frags generalizing pos with
  | nil => exact h
  | cons f rest ih =>
    obtain ⟨hfrag, hrest⟩ := h
    obtain ⟨hoff, hagrees⟩ := hfrag.agrees h0 hmf hfit hrest.isEmpty_iff
    have hfits : Fits m.data f.entry := hagrees.fits
    have hentry : f.entry.off = pos := (IpReass.shift_off _).trans hoff
    have hlen := Fits.entry_len hfits
    refine ⟨hentry, ?_, hfits, ?_⟩
    · rw [hlen]
      exact hfrag.nonempty
    · rw [hlen]
      exact ih hrest

theorem Tile.alike {m : Pkt} {mtu pos : Nat} {frags : List Pkt} (h : Tile m mtu pos frags) :
    Alike m.ip.key m.ip.tos (frags.map Pkt.entry) := by
  have hsame : ∀ f ∈ frags, f.ip.key = m.ip.key ∧ f.ip.tos = m.ip.tos := by
    induction frags generalizing pos with
    | nil => exact fun f hf => absurd hf List.not_mem_nil
    | cons f rest ih =>
      intro g hg
      obtain rfl | hg := List.mem_cons.mp hg
      · have heq := h.1.same.1
        rw [← heq]
        exact ⟨rfl, rfl⟩
      · exact ih h.2 g hg
  refine ⟨fun e he => ?_, fun e he => ?_⟩
  · obtain ⟨f, hf, rfl⟩ := List.mem_map.mp he
    exact (hsame f hf).1
  · obtain ⟨f, hf, rfl⟩ := List.mem_map.mp he
    exact (hsame f hf).2

/-- ip_fragment cuts a packet into fragments that tile its data, as far as
the field for the offset reaches, with the options they should have; handed
to ip_reass in any order they give the data of a whole packet again; and if
it fails, everything is freed. -/
theorem ip_fragment_tiles (env : Env) (m : Pkt) (mtu : Nat) (os : List (List UInt8)) (hwf : Wf m)
    (hos : Options m.opts os) (hlong : mtu < m.ip.len.toNat) :
    ∃ r, ipFragment env m mtu = some r
      ∧ (r.error = none →
        Tile (inProtoCksumOut m) mtu 0 r.frags
        ∧ r.frags.flatMap Pkt.data = (inProtoCksumOut m).data
        ∧ (m.deferred = none → r.frags.flatMap Pkt.data = m.data)
        ∧ (∃ first rest, r.frags = first :: rest ∧ rest ≠ [] ∧ first.opts = m.opts
          ∧ ∀ f ∈ rest, f.opts = laterOptions m os)
        ∧ (m.offset = 0 → m.mf = false → ∀ l : List Pkt, l.Perm r.frags → ∀ s : State,
          (∀ fp ∈ s.ipq, fp.key ≠ m.ip.key) →
          ∃ s' p, feed (l.map Pkt.entry) s
              = some (s', List.replicate (r.frags.length - 1) none ++ [some p])
            ∧ p.data = (inProtoCksumOut m).data))
      ∧ (r.error ≠ none → r.freed = .packet :: r.created ∧ r.freed.Nodup) := by
  obtain ⟨r, hrun, hr⟩ := ipFragment_spec env hwf hos hlong
  refine ⟨r, hrun, fun hok => ?_, hr.freed⟩
  have htile := hr.tile hok
  have hdata : r.frags.flatMap Pkt.data = (inProtoCksumOut m).data := htile.data
  have hip := inProtoCksumOut_ip m
  refine ⟨htile, hdata, fun hnone => ?_, hr.opts hok, fun h0 hmf l hperm s hnew => ?_⟩
  · rw [hdata, inProtoCksumOut, hnone]
  have h0' : (inProtoCksumOut m).offset = 0 := by rw [Pkt.offset, hip]; exact h0
  have hmf' : (inProtoCksumOut m).mf = false := by rw [Pkt.mf, hip]; exact hmf
  have htotal := hwf.cksum.len
  have hrow := htile.row h0' hmf' (by omega)
  have halike := htile.alike
  rw [hip] at halike
  obtain ⟨first, rest, hfrags, hrest, hopts, -⟩ := hr.opts hok
  -- Only the first entry has the offset 0, and its header is that of the packet.
  have hmax : ∀ e ∈ r.frags.map Pkt.entry, e.off = 0 →
      (inProtoCksumOut m).data.length + e.ip.hlen ≤ IpReass.ipMaxpacket := by
    intro e he hoff
    rw [hfrags] at he hrow htile
    obtain rfl | he := List.mem_cons.mp he
    · have hhlen : first.entry.ip.hlen = (inProtoCksumOut m).ip.hlen := by
        have hfirst := htile.1.wf.hlen
        rw [hopts] at hfirst
        rw [hwf.cksum.hlen, inProtoCksumOut_opts]
        exact hfirst
      unfold IpReass.ipMaxpacket
      omega
    · have hlow := (hrow.2.2.2.mem he).1
      have hpos := hrow.2.1
      omega
  have htwo : 2 ≤ (r.frags.map Pkt.entry).length := by
    rw [List.length_map, hfrags, List.length_cons]
    have hpos := List.length_pos_iff.mpr hrest
    omega
  obtain ⟨s', p, hfeed, hp⟩ := feed_any_order hrow halike hmax (hperm.map Pkt.entry) htwo s hnew
  rw [List.length_map] at hfeed
  exact ⟨s', p, hfeed, hp⟩

/-- Sixteen bytes behind a header, at some place in a datagram. -/
def sixteenAt (off : BitVec 16) : Pkt :=
  { ip := ⟨5, 0, 36, 7, off, 17, 1, 2⟩, opts := [], data := IpReass.sixteen, mcast := false,
    bcast := false, rdomain := 0, deferred := none }

/-- All allocations succeed. -/
def plenty : Env := ⟨fun _ => true, fun _ => true⟩

/-- Two fragments of eight bytes. -/
theorem ip_fragment_tiles_halves : ∃ r, ipFragment plenty (sixteenAt 0) 28 = some r
    ∧ r.error = none ∧ r.frags.length = 2 ∧ r.frags.flatMap Pkt.data = IpReass.sixteen := by
  obtain ⟨r, hrun, hok, -⟩ := ip_fragment_tiles plenty (sixteenAt 0) 28 [] ⟨rfl, rfl⟩ .nil
    (by decide)
  have herror : r.error = none := by
    have h : (ipFragment plenty (sixteenAt 0) 28).map Result.error = some none := by decide
    rw [hrun] at h
    exact Option.some.inj h
  have hlength : r.frags.length = 2 := by
    have h : (ipFragment plenty (sixteenAt 0) 28).map (fun r => r.frags.length) = some 2 := by decide
    rw [hrun] at h
    exact Option.some.inj h
  exact ⟨r, hrun, herror, hlength, (hok herror).2.2.1 rfl⟩

/-- The last eights of a datagram are cut once more: the place of the
second does not fit, so that it seems to be the first of a datagram that
goes on. -/
theorem offset_overflows :
    (sixteenAt 0x1fff).offset = 65528 ∧ (sixteenAt 0x1fff).mf = false
    ∧ (ipFragment plenty (sixteenAt 0x1fff) 28).map
        (fun r => (r.error, r.frags.map fun f => (f.offset, f.mf, f.data.length)))
      = some (none, [(65528, true, 8), (0, true, 8)]) := by
  decide

/-! ## Fragments of fragments -/

/-- What becomes of a packet on its way, cut by routers. -/
inductive OnTheWay (m₀ : Pkt) : List Pkt → Prop
  | sent : OnTheWay m₀ [m₀]
  | cut {A B : List Pkt} {m : Pkt} {env : Env} {mtu : Nat} {r : Result}
      (h : OnTheWay m₀ (A ++ m :: B)) (hlong : mtu < m.ip.len.toNat)
      (hr : ipFragment env { m with deferred := none } mtu = some r) (hok : r.error = none) :
      OnTheWay m₀ (A ++ (r.frags ++ B))

/-- The options that go into the fragments are options again. -/
theorem Options.copied {opts : List UInt8} {os : List (List UInt8)} (h : Options opts os) (k : Nat) :
    Options ((os.filter kept).flatten ++ List.replicate k ipoptEol) (os.filter kept) := by
  induction h with
  | nil | eol =>
    cases k with
    | zero => exact .nil
    | succ k => exact .eol _
  | nop h ih =>
    exact .nop ih
  | opt heol hnop hlen h ih =>
    rw [List.filter_cons]
    split
    · rw [List.flatten_cons, List.append_assoc]
      exact .opt heol hnop hlen ih
    · exact ih

section

variable {m₀ m g : Pkt} {mtu pos : Nat} {frags : List Pkt} {A B C : List Ipqent}

/-- A piece of the data of a packet. -/
structure PieceOf (m₀ m : Pkt) : Prop where
  wf : Wf m
  agrees : IpReass.Agrees m₀.data ⟨m.ip, 0, m.data⟩
  options : ∃ os, Options m.opts os
  hlen : m.ip.hlen ≤ m₀.ip.hlen
  head : m.ip.key = m₀.ip.key ∧ m.ip.tos = m₀.ip.tos

theorem PieceOf.entry (h : PieceOf m₀ m) : m.entry.off = m.offset ∧ m.entry.len = m.data.length :=
  ⟨IpReass.shift_off _, Fits.entry_len h.agrees.fits⟩

/-- A fragment of a piece is a piece. -/
theorem FragAt.piece {last : Bool} (h : FragAt m mtu pos last g) (hm : PieceOf m₀ m)
    (hP : m₀.data.length ≤ 2 ^ 16) (hlast : last = true ↔ pos + g.data.length = m.data.length)
    (hos : ∃ os, Options g.opts os) (hle : g.opts.length ≤ m.opts.length) :
    g.offset = m.offset + pos ∧ PieceOf m₀ g := by
  have hstop : m.offset + m.data.length ≤ m₀.data.length := hm.agrees.stop
  have hdata : m.data = (m₀.data.drop m.offset).take m.data.length := hm.agrees.data
  have hmore : m.mf = true ↔ m.offset + m.data.length < m₀.data.length :=
    decide_eq_true_iff.trans hm.agrees.mff
  have hlength := congrArg List.length h.data
  rw [List.length_take, List.length_drop] at hlength
  have hne := h.nonempty
  have hin : m.offset + pos < 2 ^ 16 := by omega
  have hoff := h.offset hin
  have hoff' : IpReass.Packet.offset ⟨g.ip, 0, g.data⟩ = m.offset + pos := hoff
  refine ⟨hoff, h.wf, ⟨rfl, h.wf.len, ?_, ?_, ?_⟩, hos, ?_, ?_⟩
  · rw [hoff']
    change m.offset + pos + g.data.length ≤ _
    omega
  · rw [hoff']
    change g.data = _
    rw [h.data, hdata, List.drop_take, List.take_take, List.drop_drop]
    congr 1
    simp only [List.length_take, List.length_drop]
    omega
  · rw [hoff']
    change g.ip.off &&& IpReass.ipMf ≠ 0 ↔ m.offset + pos + g.data.length < _
    refine decide_eq_true_iff.symm.trans ?_
    change g.mf = true ↔ _
    rw [h.mf hin, Bool.or_eq_true, hmore, Bool.not_eq_true', ← Bool.not_eq_true, hlast]
    omega
  · rw [h.wf.hlen]
    exact (Nat.add_le_add_left hle _).trans (hm.wf.hlen ▸ hm.hlen)
  · rw [← hm.head.1, ← hm.head.2, ← h.same.1]
    exact ⟨rfl, rfl⟩

theorem Tile.pieces (h : Tile m mtu pos frags) (hm : PieceOf m₀ m) (hP : m₀.data.length ≤ 2 ^ 16)
    (hopts : ∀ g ∈ frags, (∃ os, Options g.opts os) ∧ g.opts.length ≤ m.opts.length)
    (hB : Row m₀.data (m.offset + m.data.length) B) :
    (∀ g ∈ frags, PieceOf m₀ g) ∧ Row m₀.data (m.offset + pos) (frags.map Pkt.entry ++ B) := by
  induction frags generalizing pos with
  | nil =>
    obtain rfl : pos = m.data.length := h
    exact ⟨nofun, hB⟩
  | cons g rest ih =>
    obtain ⟨hfrag, hrest⟩ := h
    obtain ⟨hos, hle⟩ := hopts g List.mem_cons_self
    obtain ⟨hoff, hg⟩ := hfrag.piece hm hP hrest.isEmpty_iff hos hle
    obtain ⟨hall, hrow⟩ := ih hrest fun g' hg' => hopts g' (List.mem_cons_of_mem _ hg')
    refine ⟨List.forall_mem_cons.mpr ⟨hg, hall⟩, hg.entry.1.trans hoff, ?_, hg.agrees.fits, ?_⟩
    · rw [hg.entry.2]
      exact hfrag.nonempty
    · rw [hg.entry.2, Nat.add_assoc]
      exact hrow

theorem Row.cut (h : Row P pos (A ++ e :: B)) :
    Row P (e.off + e.len) B ∧ (Row P e.off C → Row P pos (A ++ C)) := by
  induction A generalizing pos with
  | nil =>
    obtain ⟨rfl, -, -, hB⟩ := h
    exact ⟨hB, id⟩
  | cons a A ih => exact ⟨(ih h.2.2.2).1, fun hC => ⟨h.1, h.2.1, h.2.2.1, (ih h.2.2.2).2 hC⟩⟩

/-- What is on the way are pieces that make up the data. -/
theorem OnTheWay.pieces (hP : m₀.data.length ≤ 2 ^ 16) (hm₀ : PieceOf m₀ m₀)
    (hrow₀ : Row m₀.data 0 [m₀.entry]) {l : List Pkt} (h : OnTheWay m₀ l) :
    (∀ m ∈ l, PieceOf m₀ m) ∧ Row m₀.data 0 (l.map Pkt.entry) := by
  induction h with
  | sent => exact ⟨List.forall_mem_singleton.mpr hm₀, hrow₀⟩
  | @cut A B m env mtu r h hlong hr hok ih =>
    obtain ⟨hall, hrow⟩ := ih
    simp only [List.forall_mem_append, List.forall_mem_cons, List.map_append, List.map_cons]
      at hall hrow ⊢
    obtain ⟨hA, hm, hB⟩ := hall
    have hm' : PieceOf m₀ { m with deferred := none } :=
      ⟨⟨hm.wf.hlen, hm.wf.len⟩, hm.agrees, hm.options, hm.hlen, hm.head⟩
    obtain ⟨os, hos⟩ := hm.options
    obtain ⟨r', hr', hfrag⟩ := ipFragment_spec env hm'.wf hos hlong
    obtain rfl : r' = r := Option.some.inj (hr'.symm.trans hr)
    have hopts : ∀ g ∈ r'.frags, (∃ os, Options g.opts os) ∧ g.opts.length ≤ m.opts.length := by
      obtain ⟨first, rest, hfrags, -, hfirst, hlater⟩ := hfrag.opts hok
      have hle : (laterOptions { m with deferred := none } os).length + ipSize ≤ m.ip.hlen :=
        (laterOptions_length hm'.wf hos).1
      have hhlen : m.ip.hlen = ipSize + m.opts.length := hm.wf.hlen
      rw [hfrags, List.forall_mem_cons, hfirst]
      refine ⟨⟨⟨os, hos⟩, le_rfl⟩, fun g hg => ?_⟩
      rw [hlater g hg]
      refine ⟨?_, by omega⟩
      rw [laterOptions]
      split
      · exact ⟨_, hos.copied _⟩
      · exact ⟨[], .nil⟩
    obtain ⟨hrest, hcut⟩ := hrow.cut
    rw [hm.entry.1, hm.entry.2] at hrest
    obtain ⟨hnew, hrow'⟩ := (hfrag.tile hok).pieces hm' hP hopts hrest
    exact ⟨⟨hA, hnew, hB⟩, hcut (hm.entry.1 ▸ hrow')⟩

/-- Fragments that may have been cut again, any number of times, give the data of the packet in
any order. -/
theorem refragmented_reass {os : List (List UInt8)} (hwf : Wf m₀) (hos : Options m₀.opts os)
    (h0 : m₀.offset = 0) (hmf : m₀.mf = false) (hdata : 0 < m₀.data.length) {l l' : List Pkt}
    (h : OnTheWay m₀ l) (htwo : 2 ≤ l.length) (hperm : l'.Perm l) (s : State)
    (hnew : ∀ fp ∈ s.ipq, fp.key ≠ m₀.ip.key) :
    ∃ s' p, feed (l'.map Pkt.entry) s
        = some (s', List.replicate (l.length - 1) none ++ [some p]) ∧ p.data = m₀.data := by
  have hlen := hwf.len
  have hwhole : PieceOf m₀ m₀ := by
    have hoff : IpReass.Packet.offset ⟨m₀.ip, 0, m₀.data⟩ = 0 := h0
    refine ⟨hwf, ⟨rfl, hlen, ?_, ?_, ?_⟩, ⟨os, hos⟩, Nat.le_refl _, rfl, rfl⟩
    all_goals rw [hoff]
    · exact (Nat.zero_add _).le
    · exact List.take_length.symm
    · exact iff_of_false (of_decide_eq_false hmf) (by simp)
  have hrow₀ : Row m₀.data 0 [m₀.entry] := by
    obtain ⟨hoff, hsize⟩ := hwhole.entry
    refine ⟨hoff.trans h0, hsize ▸ hdata, hwhole.agrees.fits, ?_⟩
    rw [hsize]
    exact Nat.zero_add _
  obtain ⟨hall, hrow⟩ := h.pieces (by omega) hwhole hrow₀
  have hmap : ∀ Q : Ipqent → Prop, (∀ m ∈ l, Q m.entry) → ∀ e ∈ l.map Pkt.entry, Q e :=
    fun _ hQ => List.forall_mem_map.mpr hQ
  have halike : Alike m₀.ip.key m₀.ip.tos (l.map Pkt.entry) :=
    ⟨hmap _ fun m hm => (hall m hm).head.1, hmap _ fun m hm => (hall m hm).head.2⟩
  have hfit : ∀ e ∈ l.map Pkt.entry, e.off = 0 →
      m₀.data.length + e.ip.hlen ≤ IpReass.ipMaxpacket := by
    refine hmap _ fun m hm _ => ?_
    have hle : m.entry.ip.hlen ≤ m₀.ip.hlen := (hall m hm).hlen
    unfold IpReass.ipMaxpacket
    omega
  obtain ⟨s', p, hfeed, hp⟩ := feed_any_order hrow halike hfit (hperm.map Pkt.entry)
    (by rwa [List.length_map]) s hnew
  rw [List.length_map] at hfeed
  exact ⟨s', p, hfeed, hp⟩

end

/-- The second half comes in first. -/
theorem refragmented_reass_halves : ∃ s' p,
    feed ([makeFrag (sixteenAt 0) [] 28 8 true, trimFirst (sixteenAt 0) 8].map Pkt.entry) ⟨[], 0⟩
      = some (s', [none, some p]) ∧ p.data = IpReass.sixteen := by
  have hcut : OnTheWay (sixteenAt 0) ([] ++ (_ ++ [])) :=
    @OnTheWay.cut _ [] [] _ plenty 28 _ .sent (by decide) rfl rfl
  exact refragmented_reass ⟨rfl, rfl⟩ .nil rfl rfl (by decide) hcut (by decide)
    (List.Perm.swap ..) ⟨[], 0⟩ nofun

end Obsd.IpFragment
