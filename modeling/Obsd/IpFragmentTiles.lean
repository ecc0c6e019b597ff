import Obsd.IpFragment
import Obsd.IpReassRuns
import Obsd.Word

/-!
# The fragments of a packet

The fragments tile the data of the packet: each begins where the one before
it ends, and its header says so, unless the place does not fit into the
13 bits that a header has for it. Options are copied as RFC 791 has it, to
the other fragments only those with the copied bit.
-/

namespace Obsd.IpFragment

open IpReass (Ip ipMf)

/-! ## Options -/

/-- A list of options, up to the end or to an EOL. -/
inductive Options : List UInt8 → List (List UInt8) → Prop
  | nil : Options [] []
  | eol (rest : List UInt8) : Options (ipoptEol :: rest) []
  | nop {rest : List UInt8} {os : List (List UInt8)} (h : Options rest os) :
      Options (ipoptNop :: rest) ([ipoptNop] :: os)
  | opt {opt olen : UInt8} {payload rest : List UInt8} {os : List (List UInt8)}
      (heol : opt ≠ ipoptEol) (hnop : opt ≠ ipoptNop) (hlen : olen.toNat = payload.length + 2)
      (h : Options rest os) :
      Options (opt :: olen :: (payload ++ rest)) ((opt :: olen :: payload) :: os)

/-- An option that goes into every fragment; a NOP goes with them. -/
def kept (o : List UInt8) : Bool := o.head? = some ipoptNop ∨ (o.head?.any ipoptCopied)

/-- The options of the fragments after the first. -/
def copiedOptions (os : List (List UInt8)) : List UInt8 := padOptions (os.filter kept).flatten

theorem optcopyLoop_eq {opts : List UInt8} {os : List (List UInt8)} (h : Options opts os)
    (turns : Nat) (dp : List UInt8) (hturns : opts.length ≤ turns) :
    optcopyLoop turns opts dp = some (dp ++ (os.filter kept).flatten) := by
  induction h generalizing turns dp with
  | nil =>
    rw [List.filter_nil, List.flatten_nil, List.append_nil]
    cases turns with
    | zero => rfl
    | succ turns => rfl
  | eol rest =>
    rw [List.filter_nil, List.flatten_nil, List.append_nil]
    cases turns with
    | zero => exact absurd hturns (Nat.not_succ_le_zero _)
    | succ turns =>
      exact if_pos rfl
  | @nop rest os h ih =>
    cases turns with
    | zero => exact absurd hturns (Nat.not_succ_le_zero _)
    | succ turns =>
      have hkept : kept [ipoptNop] = true := by decide
      rw [optcopyLoop.eq_def]
      dsimp only
      rw [if_neg (by decide), if_pos rfl, ih turns _ (Nat.le_of_succ_le_succ hturns),
        List.filter_cons_of_pos hkept, List.flatten_cons, List.append_assoc]
  | @opt opt olen payload rest os heol hnop hlen h ih =>
    cases turns with
    | zero => exact absurd hturns (Nat.not_succ_le_zero _)
    | succ turns =>
      have hsplit : opt :: olen :: (payload ++ rest) = (opt :: olen :: payload) ++ rest := rfl
      have hlength : (opt :: olen :: payload).length = olen.toNat := by
        rw [hlen, List.length_cons, List.length_cons]
      have htotal : (opt :: olen :: (payload ++ rest)).length = olen.toNat + rest.length := by
        rw [hsplit, List.length_append, hlength]
      have hfine : ¬ (olen.toNat < 2 ∨ (opt :: olen :: (payload ++ rest)).length < olen.toNat) := by
        omega
      have hdrop : (opt :: olen :: (payload ++ rest)).drop olen.toNat = rest := by
        rw [hsplit, ← hlength, List.drop_left]
      have htake : (opt :: olen :: (payload ++ rest)).take olen.toNat = opt :: olen :: payload := by
        rw [hsplit, ← hlength, List.take_left]
      have hk : kept (opt :: olen :: payload) = ipoptCopied opt := by
        unfold kept
        simp [hnop]
      rw [optcopyLoop, if_neg heol, if_neg hnop, if_neg hfine, hdrop, htake, ih turns _ (by omega)]
      cases hc : ipoptCopied opt with
      | true =>
        rw [List.filter_cons_of_pos (hk.trans hc), List.flatten_cons, if_pos rfl, List.append_assoc]
      | false =>
        have hnot : ¬ kept (opt :: olen :: payload) = true := by
          rw [hk, hc]
          decide
        rw [List.filter_cons_of_neg hnot, if_neg (by decide)]

/-- ip_optcopy copies the options with the copied bit. -/
theorem ipOptcopy_eq {opts : List UInt8} {os : List (List UInt8)} (h : Options opts os) :
    ipOptcopy opts = some (copiedOptions os) := by
  rw [ipOptcopy, optcopyLoop_eq h opts.length [] le_rfl]
  rfl

theorem flatten_length_le {opts : List UInt8} {os : List (List UInt8)} (h : Options opts os) :
    (os.filter kept).flatten.length ≤ opts.length := by
  induction h with
  | nil => exact Nat.zero_le _
  | eol rest => exact Nat.zero_le _
  | nop h ih =>
    rw [List.filter_cons_of_pos (by decide), List.flatten_cons, List.length_append,
      List.length_cons, List.length_cons, List.length_nil]
    omega
  | @opt opt olen payload rest os heol hnop hlen h ih =>
    simp only [List.length_cons, List.length_append]
    by_cases hk : kept (opt :: olen :: payload) = true
    · rw [List.filter_cons_of_pos hk, List.flatten_cons, List.length_append]
      simp only [List.length_cons]
      omega
    · rw [List.filter_cons_of_neg hk]
      omega

theorem padOptions_length (dp : List UInt8) :
    (padOptions dp).length % 4 = 0 ∧ dp.length ≤ (padOptions dp).length
      ∧ ∀ n, n % 4 = 0 → dp.length ≤ n → (padOptions dp).length ≤ n := by
  rw [padOptions, List.length_append, List.length_replicate]
  refine ⟨?_, ?_, fun n hn hle => ?_⟩
  · omega
  · omega
  · omega

/-- The copied options take no more room than the options. -/
theorem copiedOptions_length {opts : List UInt8} {os : List (List UInt8)} (h : Options opts os)
    (h4 : opts.length % 4 = 0) :
    (copiedOptions os).length ≤ opts.length ∧ (copiedOptions os).length % 4 = 0 :=
  ⟨(padOptions_length _).2.2 _ h4 (flatten_length_le h), (padOptions_length _).1⟩

/-! ## The field of the offset -/

/-- The place of the data in the datagram. -/
def Pkt.offset (m : Pkt) : Nat := m.ip.off.toNat % 2 ^ 13 * 8

/-- More fragments follow. -/
def Pkt.mf (m : Pkt) : Bool := m.ip.off &&& ipMf ≠ 0

theorem mf_iff (x : BitVec 16) : x &&& ipMf ≠ 0 ↔ x.toNat / 2 ^ 13 % 2 = 1 := by
  refine (not_congr (IpReass.and_mf x)).trans ?_
  omega

theorem toNat_without_mf (x : BitVec 16) :
    (x &&& ~~~ipMf).toNat = x.toNat - x.toNat / 2 ^ 13 % 2 * 2 ^ 13 := by
  have hand : (x &&& ipMf).toNat = x.toNat / 2 ^ 13 % 2 * 2 ^ 13 := by
    refine (Nat.and_two_pow x.toNat 13).trans ?_
    rw [Nat.testBit_eq_decide_div_mod_eq]
    obtain h | h := Nat.mod_two_eq_zero_or_one (x.toNat / 2 ^ 13)
    · rw [h]
      rfl
    · rw [h]
      rfl
  have hsub : x &&& ~~~ipMf = x - (x &&& ipMf) :=
    BitVec.eq_sub_iff_add_eq.mpr (Word.and_add_and_not x ipMf)
  have hle : x &&& ipMf ≤ x := by
    rw [BitVec.le_def, hand]
    omega
  rw [hsub, BitVec.toNat_sub_of_le hle, hand]

theorem toNat_or_mf (x : BitVec 16) :
    (x ||| ipMf).toNat = x.toNat - x.toNat / 2 ^ 13 % 2 * 2 ^ 13 + 2 ^ 13 := by
  have hdisjoint : (x &&& ~~~ipMf) &&& ipMf = 0 := by
    rw [BitVec.and_assoc, BitVec.and_comm (~~~ipMf) ipMf, BitVec.and_not_self]
    exact BitVec.and_zero
  have hor : x ||| ipMf = (x &&& ~~~ipMf) ||| ipMf := by
    ext i hi
    simp only [BitVec.getElem_or, BitVec.getElem_and, BitVec.getElem_not]
    cases x[i] <;> cases ipMf[i] <;> rfl
  have hmf : ipMf.toNat = 2 ^ 13 := rfl
  rw [hor, ← BitVec.add_eq_or_of_and_eq_zero _ _ hdisjoint, BitVec.toNat_add, toNat_without_mf, hmf]
  omega

/-- The field of a fragment that begins `8 * k` bytes further on. -/
theorem fragOff_spec (x : BitVec 16) (k : Nat) (hk : x.toNat % 2 ^ 13 + k < 2 ^ 13) (more : Bool) :
    let ipOff := BitVec.ofNat 16 k + (x &&& ~~~ipMf)
    let ipOff := if x &&& ipMf ≠ 0 then ipOff ||| ipMf else ipOff
    let ipOff := if more then ipOff ||| ipMf else ipOff
    ipOff.toNat % 2 ^ 13 = x.toNat % 2 ^ 13 + k
      ∧ (ipOff.toNat / 2 ^ 13 % 2 = 1 ↔ x.toNat / 2 ^ 13 % 2 = 1 ∨ more = true) := by
  have hbase : (BitVec.ofNat 16 k + (x &&& ~~~ipMf)).toNat
      = x.toNat / 2 ^ 14 * 2 ^ 14 + (x.toNat % 2 ^ 13 + k) := by
    rw [BitVec.toNat_add, BitVec.toNat_ofNat, toNat_without_mf, Nat.mod_eq_of_lt (by omega : k < 2 ^ 16)]
    omega
  dsimp only
  generalize BitVec.ofNat 16 k + (x &&& ~~~ipMf) = y at hbase
  have hlow : y.toNat % 2 ^ 13 = x.toNat % 2 ^ 13 + k := by omega
  have hset := toNat_or_mf y
  by_cases hmf : x &&& ipMf ≠ 0
  · have hbit := (mf_iff x).mp hmf
    rw [if_pos hmf]
    have hsame : (if more = true then y ||| ipMf ||| ipMf else y ||| ipMf) = y ||| ipMf := by
      rw [BitVec.or_assoc, BitVec.or_self, ite_self]
    rw [hsame, hset]
    exact ⟨by omega, iff_of_true (by omega) (.inl hbit)⟩
  · have hbit : ¬ x.toNat / 2 ^ 13 % 2 = 1 := fun h => hmf ((mf_iff x).mpr h)
    rw [if_neg hmf]
    cases more with
    | true =>
      rw [if_pos rfl, hset]
      exact ⟨by omega, iff_of_true (by omega) (.inr rfl)⟩
    | false =>
      rw [if_neg (by decide)]
      exact ⟨hlow, iff_of_false (by omega) (not_or.mpr ⟨hbit, by decide⟩)⟩

/-! ## Fragments -/

/-- A packet whose lengths agree. -/
structure Wf (m : Pkt) : Prop where
  hlen : m.ip.hlen = ipSize + m.opts.length
  len : m.ip.len.toNat = m.ip.hlen + m.data.length

/-- The fragment of `m` that begins `pos` bytes into the data. What its
header says about that holds if the field is large enough. -/
structure FragAt (m : Pkt) (mtu pos : Nat) (last : Bool) (f : Pkt) : Prop where
  wf : Wf f
  short : f.ip.len.toNat ≤ mtu
  eights : last = false → f.data.length % 8 = 0
  nonempty : 0 < f.data.length
  data : f.data = (m.data.drop pos).take f.data.length
  offset : m.offset + pos < 2 ^ 16 → f.offset = m.offset + pos
  mf : m.offset + pos < 2 ^ 16 → f.mf = (m.mf || !last)
  same : ({ f.ip with hl := m.ip.hl, off := m.ip.off, len := m.ip.len } : Ip) = m.ip
    ∧ f.mcast = m.mcast ∧ f.bcast = m.bcast ∧ f.rdomain = m.rdomain

/-- The fragments cover the data from `pos` on, one after the other. -/
def Tile (m : Pkt) (mtu : Nat) : Nat → List Pkt → Prop
  | pos, [] => pos = m.data.length
  | pos, f :: rest => FragAt m mtu pos rest.isEmpty f ∧ Tile m mtu (pos + f.data.length) rest

/-- The options of the fragments after the first. -/
def laterOptions (m : Pkt) (os : List (List UInt8)) : List UInt8 :=
  if ipSize < m.ip.hlen then copiedOptions os else []

theorem hlen_mod (m : Pkt) : m.ip.hlen % 4 = 0 := by
  unfold Ip.hlen
  omega

theorem laterOptions_length {m : Pkt} {os : List (List UInt8)} (hwf : Wf m)
    (hos : Options m.opts os) :
    (laterOptions m os).length + ipSize ≤ m.ip.hlen ∧ (laterOptions m os).length % 4 = 0 := by
  have hmod := hlen_mod m
  have hhlen := hwf.hlen
  have hsize : ipSize = 20 := rfl
  unfold laterOptions
  split
  · obtain ⟨hle, h4⟩ := copiedOptions_length hos (by omega)
    exact ⟨by omega, h4⟩
  · rw [List.length_nil]
    omega

theorem makeFrag_hlen {m : Pkt} {os : List (List UInt8)} (hwf : Wf m) (hos : Options m.opts os)
    (off n : Nat) (last : Bool) :
    (makeFrag m (laterOptions m os) off n last).ip.hlen = ipSize + (laterOptions m os).length := by
  obtain ⟨hle, h4⟩ := laterOptions_length hwf hos
  have hmax := m.ip.hlen_le
  have hsize : ipSize = 20 := rfl
  show (if ipSize < m.ip.hlen then BitVec.ofNat 4 (((laterOptions m os).length + ipSize) >>> 2)
    else m.ip.hl).toNat * 4 = _
  by_cases hopts : ipSize < m.ip.hlen
  · rw [if_pos hopts, BitVec.toNat_ofNat, Nat.shiftRight_eq_div_pow]
    omega
  · have hhl : m.ip.hl.toNat * 4 = m.ip.hlen := rfl
    rw [if_neg hopts, hhl]
    omega

theorem makeFrag_at {m : Pkt} {os : List (List UInt8)} (hwf : Wf m) (hos : Options m.opts os)
    {mtu pos n : Nat} {last : Bool} (h8 : pos % 8 = 0) (hn : 0 < n)
    (hend : pos + n ≤ m.data.length) (hlast : last = false → n % 8 = 0)
    (hmtu : m.ip.hlen + n ≤ mtu) :
    FragAt m mtu pos last (makeFrag m (laterOptions m os) (m.ip.hlen + pos) n last) := by
  obtain ⟨hle, -⟩ := laterOptions_length hwf hos
  have hhlen := makeFrag_hlen hwf hos (m.ip.hlen + pos) n last
  have hpos : m.ip.hlen + pos - m.ip.hlen = pos := Nat.add_sub_cancel_left _ _
  have hdata : (makeFrag m (laterOptions m os) (m.ip.hlen + pos) n last).data
      = (m.data.drop pos).take n := by
    show (m.data.drop (m.ip.hlen + pos - m.ip.hlen)).take n = _
    rw [hpos]
  have hlength : (makeFrag m (laterOptions m os) (m.ip.hlen + pos) n last).data.length = n := by
    rw [hdata, List.length_take, List.length_drop]
    omega
  have hlen : (makeFrag m (laterOptions m os) (m.ip.hlen + pos) n last).ip.len.toNat
      = n + ((laterOptions m os).length + ipSize) := by
    have htotal := hwf.len
    exact (BitVec.toNat_ofNat _ _).trans (Nat.mod_eq_of_lt (by omega))
  have hoff : m.offset + pos < 2 ^ 16 → _ := fun hfit =>
    fragOff_spec m.ip.off (pos / 8) (by unfold Pkt.offset at hfit; omega) (!last)
  have hfield : (makeFrag m (laterOptions m os) (m.ip.hlen + pos) n last).ip.off
      = (let ipOff := BitVec.ofNat 16 (pos / 8) + (m.ip.off &&& ~~~ipMf)
        let ipOff := if m.ip.off &&& ipMf ≠ 0 then ipOff ||| ipMf else ipOff
        if (!last) = true then ipOff ||| ipMf else ipOff) := by
    unfold makeFrag
    dsimp only
    rw [hpos, Nat.shiftRight_eq_div_pow]
    cases last <;> rfl
  refine ⟨⟨hhlen, ?_⟩, ?_, ?_, ?_, ?_, ?_, ?_, rfl, rfl, rfl, rfl⟩
  · omega
  · omega
  · rw [hlength]
    exact hlast
  · rw [hlength]
    exact hn
  · rw [hlength, hdata]
  · intro hfit
    unfold Pkt.offset
    rw [hfield, (hoff hfit).1]
    omega
  · intro hfit
    unfold Pkt.mf
    rw [hfield, Bool.eq_iff_iff, decide_eq_true_iff, mf_iff, (hoff hfit).2, Bool.or_eq_true,
      decide_eq_true_iff, mf_iff]

/-! ## The loop -/

/-- The mbuf is one of those for the fragments from the i-th on. -/
def Mbuf.From (i : Nat) : Mbuf → Prop
  | packet => False
  | header j => i ≤ j
  | copy j => i ≤ j

theorem Mbuf.From.mono {i j : Nat} {x : Mbuf} (h : x.From j) (hle : i ≤ j) : x.From i := by
  cases x with
  | packet => exact h
  | header k => exact Nat.le_trans hle h
  | copy k => exact Nat.le_trans hle h

/-- What the loop adds to the list: the mbufs it creates, each once, and if
nothing fails the fragments of the data from `pos` on. -/
structure Added (m : Pkt) (mtu : Nat) (os : List (List UInt8)) (i pos : Nat) (c c' : Chain)
    (error : Option Err) (new : List Link) : Prop where
  links : c'.links = c.links ++ new
  created : c'.created = c.created ++ new.flatMap Link.mbufs
  nodup : (new.flatMap Link.mbufs).Nodup
  fresh : ∀ x ∈ new.flatMap Link.mbufs, x.From i
  tile : error = none → Tile m mtu pos (new.map Link.frag)
  opts : error = none → ∀ l ∈ new, l.frag.opts = laterOptions m os

section

variable {env : Env} {m : Pkt} {os : List (List UInt8)} {mtu len : Nat}

theorem Added.nil {i pos : Nat} {c : Chain} {error : Option Err}
    (h : error = none → pos = m.data.length) : Added m mtu os i pos c c error [] where
  links := (List.append_nil _).symm
  created := (List.append_nil _).symm
  nodup := List.nodup_nil
  fresh := fun _ hx => absurd hx List.not_mem_nil
  tile := h
  opts := fun _ _ hl => absurd hl List.not_mem_nil

/-- A fragment, and what is added after it. -/
theorem Added.cons {i pos n : Nat} {c c' : Chain} {error : Option Err} {new : List Link} {f : Pkt}
    (hrest : Added m mtu os (i + 1) (pos + n)
      ⟨c.links ++ [⟨f, [.header i, .copy i]⟩], c.created ++ [.header i, .copy i]⟩ c' error new)
    (hn : f.data.length = n) (hopts : f.opts = laterOptions m os)
    (hfrag : error = none → FragAt m mtu pos new.isEmpty f) :
    Added m mtu os i pos c c' error (⟨f, [.header i, .copy i]⟩ :: new) where
  links := by rw [hrest.links, List.append_assoc, List.singleton_append]
  created := by rw [hrest.created, List.append_assoc, List.flatMap_cons]
  nodup := by
    refine List.Nodup.append (by simp) hrest.nodup ?_
    intro x hx hnew
    have hfrom := hrest.fresh x hnew
    rw [List.mem_cons, List.mem_singleton] at hx
    obtain rfl | rfl := hx
    · exact absurd hfrom (Nat.not_succ_le_self i)
    · exact absurd hfrom (Nat.not_succ_le_self i)
  fresh := by
    intro x hx
    obtain hx | hx := List.mem_append.mp hx
    · rw [List.mem_cons, List.mem_singleton] at hx
      obtain rfl | rfl := hx
      · exact Nat.le_refl i
      · exact Nat.le_refl i
    · exact (hrest.fresh x hx).mono (Nat.le_succ i)
  tile := by
    intro hok
    refine ⟨?_, hn ▸ hrest.tile hok⟩
    rw [List.isEmpty_map]
    exact hfrag hok
  opts := by
    intro hok l hl
    obtain rfl | hl := List.mem_cons.mp hl
    · exact hopts
    · exact hrest.opts hok l hl

variable (hwf : Wf m) (hos : Options m.opts os) (hlen : 0 < len) (hlen8 : len % 8 = 0)
  (hmtu : m.ip.hlen + len ≤ mtu)
include hwf hos hlen hlen8 hmtu

theorem fragLoop_spec (turns : Nat) {i pos : Nat} {c : Chain} (hpos : pos ≤ m.data.length)
    (h8 : pos % 8 = 0 ∨ pos = m.data.length) (hturns : m.data.length ≤ pos + turns) :
    ∃ c' error new, fragLoop env m len turns i (m.ip.hlen + pos) c = some (c', error)
      ∧ Added m mtu os i pos c c' error new := by
  have htotal := hwf.len
  induction turns generalizing i pos c with
  | zero => exact ⟨c, none, [], rfl, .nil fun _ => by omega⟩
  | succ turns ih =>
    rw [fragLoop]
    by_cases hdone : m.ip.len.toNat ≤ m.ip.hlen + pos
    · rw [if_pos hdone]
      exact ⟨c, none, [], rfl, .nil fun _ => by omega⟩
    rw [if_neg hdone]
    by_cases hheader : env.header i = false
    · rw [if_pos hheader]
      exact ⟨c, some .enobufs, [], rfl, .nil nofun⟩
    have hcopied : (if ipSize < m.ip.hlen then ipOptcopy m.opts else some [])
        = some (laterOptions m os) := by
      unfold laterOptions
      rw [ipOptcopy_eq hos]
      split <;> rfl
    rw [if_neg hheader, hcopied, Option.bind_eq_bind, Option.bind_some]
    dsimp only
    obtain ⟨last, hlast⟩ : ∃ b, decide (m.ip.len.toNat ≤ m.ip.hlen + pos + len) = b := ⟨_, rfl⟩
    rw [hlast]
    obtain ⟨n, hn⟩ : ∃ n, (if last = true then m.ip.len.toNat - (m.ip.hlen + pos) else len) = n :=
      ⟨_, rfl⟩
    rw [hn]
    -- The last fragment takes what is left, the others take `len` bytes.
    have hsize : n ≤ len ∧ 0 < n ∧ pos + n ≤ m.data.length
        ∧ (last = false → n % 8 = 0 ∧ pos + n < m.data.length)
        ∧ (last = true → pos + n = m.data.length) := by
      cases last with
      | true =>
        have hle := of_decide_eq_true hlast
        rw [if_pos rfl] at hn
        exact ⟨by omega, by omega, by omega, nofun, fun _ => by omega⟩
      | false =>
        have hlt := of_decide_eq_false hlast
        rw [if_neg (by decide)] at hn
        exact ⟨by omega, by omega, by omega, fun _ => ⟨by omega, by omega⟩, nofun⟩
    obtain ⟨hnlen, hnpos, hend, hmore, hfull⟩ := hsize
    have hfrag : FragAt m mtu pos last (makeFrag m (laterOptions m os) (m.ip.hlen + pos) n last) :=
      makeFrag_at hwf hos (by omega) hnpos hend (fun h => (hmore h).1) (by omega)
    by_cases hcopy : env.copy i = false
    · rw [if_pos hcopy]
      refine ⟨_, some .enobufs, [⟨_, [.header i]⟩], rfl, rfl, rfl, ?_, ?_, nofun, nofun⟩
      · exact List.nodup_singleton _
      · intro x hx
        obtain rfl := List.mem_singleton.mp hx
        exact Nat.le_refl i
    rw [if_neg hcopy]
    obtain ⟨c', error, new, hrun, hadded⟩ := @ih (i + 1) (pos + n)
      ⟨c.links ++ [⟨makeFrag m (laterOptions m os) (m.ip.hlen + pos) n last,
        [.header i, .copy i]⟩], c.created ++ [.header i, .copy i]⟩ hend
      (by
        cases last with
        | true => exact .inr (hfull rfl)
        | false =>
          have h := (hmore rfl).1
          exact .inl (by omega)) (by omega)
    rw [← Nat.add_assoc] at hrun
    refine ⟨c', error, _, hrun, hadded.cons ?_ rfl fun hok => ?_⟩
    · show ((m.data.drop (m.ip.hlen + pos - m.ip.hlen)).take n).length = n
      rw [Nat.add_sub_cancel_left, List.length_take, List.length_drop]
      omega
    · have hempty : new.isEmpty = last := by
        have htile := hadded.tile hok
        cases new with
        | nil =>
          have hstop : pos + n = m.data.length := htile
          cases last with
          | true => rfl
          | false => exact absurd hstop (Nat.ne_of_lt (hmore rfl).2)
        | cons l new =>
          cases last with
          | false => rfl
          | true =>
            have hfirst : FragAt m mtu (pos + n) _ l.frag := htile.1
            have hmust := hfirst.nonempty
            rw [hfirst.data, hfull rfl, List.drop_length, List.take_nil] at hmust
            exact absurd hmust (by decide)
      rw [hempty]
      exact hfrag

end

/-! ## The first fragment -/

theorem trimFirst_at {m : Pkt} (hwf : Wf m) {mtu len : Nat} (hpos : 0 < len) (h8 : len % 8 = 0)
    (hlt : len < m.data.length) (hmtu : m.ip.hlen + len ≤ mtu) :
    FragAt m mtu 0 false (trimFirst m len) := by
  have htotal := hwf.len
  have hlength : (trimFirst m len).data.length = len := by
    show (m.data.take len).length = len
    rw [List.length_take]
    omega
  have hlen : (trimFirst m len).ip.len.toNat = m.ip.hlen + len :=
    (BitVec.toNat_ofNat _ _).trans (Nat.mod_eq_of_lt (by omega))
  have hoff : (trimFirst m len).ip.off.toNat
      = m.ip.off.toNat - m.ip.off.toNat / 2 ^ 13 % 2 * 2 ^ 13 + 2 ^ 13 := toNat_or_mf _
  refine ⟨⟨hwf.hlen, ?_⟩, ?_, ?_, ?_, ?_, ?_, ?_, rfl, rfl, rfl, rfl⟩
  · rw [hlen, hlength]
    rfl
  · rw [hlen]
    exact hmtu
  · exact fun _ => hlength.symm ▸ h8
  · rw [hlength]
    exact hpos
  · rw [hlength, List.drop_zero]
    rfl
  · intro _
    unfold Pkt.offset
    omega
  · intro _
    have hbit : (trimFirst m len).mf = true := by
      unfold Pkt.mf
      rw [decide_eq_true_iff, mf_iff, hoff]
      omega
    rw [hbit]
    exact (Bool.or_true _).symm

/-! ## ip_fragment -/

theorem inProtoCksumOut_ip (m : Pkt) : (inProtoCksumOut m).ip = m.ip := by
  unfold inProtoCksumOut
  split <;> rfl

theorem inProtoCksumOut_opts (m : Pkt) : (inProtoCksumOut m).opts = m.opts := by
  unfold inProtoCksumOut
  split <;> rfl

theorem Wf.cksum {m : Pkt} (h : Wf m) : Wf (inProtoCksumOut m) := by
  have hlength : (inProtoCksumOut m).data.length = m.data.length := by
    unfold inProtoCksumOut
    split
    · rfl
    · rw [List.length_set, List.length_set]
  refine ⟨?_, ?_⟩
  · rw [inProtoCksumOut_ip, inProtoCksumOut_opts]
    exact h.hlen
  · rw [inProtoCksumOut_ip, hlength]
    exact h.len

/-- The data of the fragments is the data of the packet. -/
theorem Tile.data {m : Pkt} {mtu : Nat} {frags : List Pkt} {pos : Nat} (h : Tile m mtu pos frags) :
    frags.flatMap Pkt.data = m.data.drop pos := by
  induction frags generalizing pos with
  | nil =>
    have hpos : pos = m.data.length := h
    rw [hpos, List.drop_length]
    rfl
  | cons f rest ih =>
    obtain ⟨hfrag, hrest⟩ := h
    rw [List.flatMap_cons, ih hrest, hfrag.data, ← hfrag.data, ← List.drop_drop]
    nth_rewrite 1 [hfrag.data]
    rw [List.take_append_drop]

/-- What a call of ip_fragment comes to. -/
structure Fragmented (m : Pkt) (mtu : Nat) (os : List (List UInt8)) (r : Result) : Prop where
  /-- The fragments tile the data. -/
  tile : r.error = none → Tile (inProtoCksumOut m) mtu 0 r.frags
  /-- The first has all options and the others have the copied ones. -/
  opts : r.error = none → ∃ first rest, r.frags = first :: rest ∧ rest ≠ []
    ∧ first.opts = m.opts ∧ ∀ f ∈ rest, f.opts = laterOptions m os
  /-- If it fails, what was created is freed, and the packet, each once. -/
  freed : r.error ≠ none → r.freed = .packet :: r.created ∧ r.freed.Nodup

theorem ipFragment_spec (env : Env) {m : Pkt} {mtu : Nat} {os : List (List UInt8)} (hwf : Wf m)
    (hos : Options m.opts os) (hlong : mtu < m.ip.len.toNat) :
    ∃ r, ipFragment env m mtu = some r ∧ Fragmented m mtu os r := by
  have htotal := hwf.cksum.len
  rw [inProtoCksumOut_ip] at htotal
  have hint : Int.bmod (((mtu : Int) - m.ip.hlen) / 8 * 8) (2 ^ 32)
      = ((mtu : Int) - m.ip.hlen) / 8 * 8 := by
    refine Int.bmod_eq_of_le ?_ ?_
    · omega
    · omega
  rw [ipFragment]
  dsimp only
  rw [hint]
  by_cases hshort : ((mtu : Int) - m.ip.hlen) / 8 * 8 < 8
  · rw [if_pos hshort]
    exact ⟨_, rfl, nofun, nofun, fun _ => ⟨rfl, List.nodup_singleton _⟩⟩
  rw [if_neg hshort]
  obtain ⟨len, hlen⟩ : ∃ n, (((mtu : Int) - m.ip.hlen) / 8 * 8).toNat = n := ⟨_, rfl⟩
  rw [hlen]
  have hlen8 : len % 8 = 0 := by omega
  have hpos : 0 < len := by omega
  have hmtu : m.ip.hlen + len ≤ mtu := by omega
  have hlt : len < (inProtoCksumOut m).data.length := by omega
  have hos' : Options (inProtoCksumOut m).opts os := (inProtoCksumOut_opts m).symm ▸ hos
  have hip := inProtoCksumOut_ip m
  obtain ⟨c, error, new, hrun, hadded⟩ := @fragLoop_spec env (inProtoCksumOut m) os mtu len
    hwf.cksum hos' hpos hlen8 (by rw [hip]; exact hmtu) m.ip.len.toNat 0 len ⟨[], []⟩
    (Nat.le_of_lt hlt) (.inl hlen8) (by omega)
  rw [hip] at hrun ⊢
  rw [hrun, Option.bind_eq_bind, Option.bind_some]
  have hlinks : c.links = new := hadded.links
  have hcreated : c.created = new.flatMap Link.mbufs := hadded.created
  cases error with
  | none =>
    have htile := hadded.tile rfl
    have hnew : new ≠ [] := by
      rintro rfl
      exact absurd htile (Nat.ne_of_lt hlt)
    refine ⟨_, rfl, fun _ => ?_, fun _ => ?_, fun h => absurd rfl h⟩
    · have hfirst : FragAt (inProtoCksumOut m) mtu 0 false (trimFirst (inProtoCksumOut m) len) :=
        trimFirst_at hwf.cksum hpos hlen8 hlt (by rw [hip]; exact hmtu)
      have hlength : (trimFirst (inProtoCksumOut m) len).data.length = len := by
        show ((inProtoCksumOut m).data.take len).length = len
        rw [List.length_take]
        omega
      show FragAt _ _ _ _ _ ∧ Tile _ _ _ _
      rw [hlinks, hlength, Nat.zero_add, List.isEmpty_map, List.isEmpty_eq_false_iff.mpr hnew]
      exact ⟨hfirst, htile⟩
    · refine ⟨_, _, rfl, ?_, ?_, ?_⟩
      · rw [hlinks]
        exact fun h => hnew (List.map_eq_nil_iff.mp h)
      · exact inProtoCksumOut_opts m
      · intro f hf
        rw [hlinks] at hf
        obtain ⟨l, hl, rfl⟩ := List.mem_map.mp hf
        rw [hadded.opts rfl l hl, laterOptions, laterOptions, hip]
  | some e =>
    refine ⟨_, rfl, nofun, nofun, fun _ => ⟨?_, ?_⟩⟩
    · rw [hlinks, hcreated]
    · rw [hlinks]
      exact List.nodup_cons.mpr ⟨fun hmem => hadded.fresh _ hmem, hadded.nodup⟩

end Obsd.IpFragment
