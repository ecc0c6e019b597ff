import Mathlib
import Obsd.OnesSum

/-!
# Checksums under address translation

When pf rewrites an address or a port it does not sum the packet up
again. `pf_cksum_fixup` takes the old word out of the checksum and puts
the new one in, one word after the other; an ICMP error also quotes a
packet that has checksums of its own, and these are words of the message
themselves. All of it is arithmetic modulo 65535. What is not is the
special part that zero has in a UDP checksum.

Words are 16 bits of the packet as the host reads them: the sum does not
depend on their order, and all ones read the same either way.
-/

namespace Obsd.PfCksum

open OnesSum

/-! ## The code -/

abbrev Word := BitVec 16

/-- The difference is taken in 32 bits, where it may borrow, and folded once. -/
def pfCksumFixup (cksum old new : Word) (udp : Bool) : Word :=
  if udp && cksum == 0#16 then 0#16
  else
    let l : BitVec 32 := cksum.setWidth 32 + old.setWidth 32 - new.setWidth 32
    let l := (l >>> 16) + (l &&& 65535#32)
    let l := l &&& 65535#32
    if udp && l == 0#32 then 0xFFFF#16 else l.setWidth 16

inductive Af where
  | inet | inet6
deriving DecidableEq, Repr

/-- A `struct pf_addr` as its `addr16`. -/
abbrev PfAddr := Vector Word 8

/-- How many of them an address of the family has. -/
def Af.len : Af → Nat
  | .inet => 2
  | .inet6 => 8

def words (af : Af) (a : PfAddr) : List Word := a.toList.take af.len

/-- `PF_ACPY` -/
def pfAcpy (a b : PfAddr) (af : Af) : PfAddr :=
  Vector.ofFn fun i => if i.val < af.len then b[i] else a[i]

/-- The fixups for the words of an address, from the first to the last. -/
def fixupAddr (c : Word) (ao an : PfAddr) (u : Bool) (af : Af) : Word :=
  (List.zip (words af ao) (words af an)).foldl (fun c p => pfCksumFixup c p.1 p.2 u) c

/-- The address, the port and the checksum that `pf_change_ap` leaves. -/
def pfChangeAp (a : PfAddr) (p pc : Word) (an : PfAddr) (pn : Word) (u : Bool) (af : Af) :
    PfAddr × Word × Word :=
  (pfAcpy a an af, pn, pfCksumFixup (fixupAddr pc a an u af) p pn u)

/-- The halves of a `u_int32_t`. -/
def halves (a : BitVec 32) : Word × Word :=
  (BitVec.ofNat 16 (a.toNat / 65536), BitVec.ofNat 16 (a.toNat % 65536))

def pfChangeA (a : BitVec 32) (c : Option Word) (an : BitVec 32) (u : Bool) : BitVec 32 × Option Word :=
  (an, c.map fun c =>
    pfCksumFixup (pfCksumFixup c (halves a).1 (halves an).1 u) (halves a).2 (halves an).2 u)

def pfChangeA6 (a : PfAddr) (c : Option Word) (an : PfAddr) (u : Bool) : PfAddr × Option Word :=
  (pfAcpy a an .inet6, c.map fun c => fixupAddr c a an u .inet6)

/-- What `pf_change_icmp` is given pointers to; `oa`, `ip` and `pc` may be null. -/
structure Inner where
  ia : PfAddr
  ip : Option Word
  oa : Option PfAddr
  pc : Option Word
  h2c : Word
  ic : Word
deriving DecidableEq

/-- Change the port, and fix the inner checksum and with it the outer one. -/
def changePort (e : Inner) (np : Word) (u : Bool) : Inner :=
  match e.ip with
  | none => e
  | some oip =>
    let ic := pfCksumFixup e.ic oip np false
    match e.pc with
    | none => { e with ip := some np, ic := ic }
    | some opc =>
      let pc := pfCksumFixup opc oip np u
      { e with ip := some np, pc := some pc, ic := pfCksumFixup ic opc pc false }

/-- Change the inner address. In `AF_INET6` the ICMP checksum is fixed with `u`. -/
def changeInner (e : Inner) (na : PfAddr) (u : Bool) (af : Af) : Inner :=
  match af with
  | .inet =>
    let h2c := fixupAddr e.h2c e.ia na false .inet
    let ic := fixupAddr e.ic e.ia na false .inet
    { e with ia := pfAcpy e.ia na .inet, h2c := h2c, ic := pfCksumFixup ic e.h2c h2c false }
  | .inet6 => { e with ia := pfAcpy e.ia na .inet6, ic := fixupAddr e.ic e.ia na u .inet6 }

/-- Change the outer address, which only the checksum of ICMPv6 covers. -/
def changeOuter (e : Inner) (na : PfAddr) (u : Bool) (af : Af) : Inner :=
  match e.oa with
  | none => e
  | some ooa =>
    { e with
      oa := some (pfAcpy ooa na af)
      ic := match af with
        | .inet => e.ic
        | .inet6 => fixupAddr e.ic ooa na u .inet6 }

def pfChangeIcmp (e : Inner) (na : PfAddr) (np : Word) (u : Bool) (af : Af) : Inner :=
  changeOuter (changeInner (changePort e np u) na u af) na u af

/-! ## One word -/

section Fixup

variable (c o n : Word)

/-- The fold puts a borrow or a carry back in at the bottom. -/
theorem fold_toNat :
    let l : BitVec 32 := c.setWidth 32 + o.setWidth 32 - n.setWidth 32
    (((l >>> 16) + (l &&& 65535#32)) &&& 65535#32).toNat =
      if c.toNat + o.toNat < n.toNat then c.toNat + o.toNat + 65535 - n.toNat
      else if c.toNat + o.toNat - n.toNat < 65536 then c.toNat + o.toNat - n.toNat
      else c.toNat + o.toNat - n.toNat - 65535 := by
  intro l
  have hl : l.toNat = (c.toNat + o.toNat + (2 ^ 32 - n.toNat)) % 2 ^ 32 := by
    simp only [l, BitVec.toNat_sub, BitVec.toNat_add, BitVec.toNat_setWidth]
    omega
  have hand : ∀ x : BitVec 32, (x &&& 65535#32).toNat = x.toNat % 2 ^ 16 := by
    intro x
    exact Nat.and_two_pow_sub_one_eq_mod x.toNat 16
  rw [hand, BitVec.toNat_add, hand, BitVec.toNat_ushiftRight, Nat.shiftRight_eq_div_pow, hl]
  split_ifs <;> omega

/-- The checksum before zero is seen to. -/
def folded : Word :=
  let l : BitVec 32 := c.setWidth 32 + o.setWidth 32 - n.setWidth 32
  (((l >>> 16) + (l &&& 65535#32)) &&& 65535#32).setWidth 16

theorem folded_toNat : (folded c o n).toNat =
    if c.toNat + o.toNat < n.toNat then c.toNat + o.toNat + 65535 - n.toNat
    else if c.toNat + o.toNat - n.toNat < 65536 then c.toNat + o.toNat - n.toNat
    else c.toNat + o.toNat - n.toNat - 65535 := by
  have h := fold_toNat c o n
  rw [folded]
  rw [BitVec.toNat_setWidth, h]
  split_ifs <;> omega

theorem pfCksumFixup_eq (u : Bool) : pfCksumFixup c o n u =
    if u && c == 0#16 then 0#16
    else if u && folded c o n == 0#16 then 0xFFFF#16 else folded c o n := by
  have hzero : ∀ x : BitVec 32, ((x &&& 65535#32) == 0#32)
      = ((x &&& 65535#32).setWidth 16 == 0#16) := by
    intro x
    rw [Bool.eq_iff_iff, beq_iff_eq, beq_iff_eq]
    constructor
    · intro h
      rw [h]
      rfl
    · intro h
      apply BitVec.eq_of_toNat_eq
      have h' := congrArg BitVec.toNat h
      have hand : (x &&& 65535#32).toNat = x.toNat % 2 ^ 16 := by
        exact Nat.and_two_pow_sub_one_eq_mod x.toNat 16
      rw [BitVec.toNat_setWidth, hand] at h'
      rw [hand]
      simpa using h'
  unfold pfCksumFixup folded
  dsimp only
  rw [hzero]

theorem residue_folded : residue (folded c o n) = residue c + residue o - residue n := by
  have hcast : ((folded c o n).toNat : ZMod (2 ^ 16 - 1)) + (n.toNat : ZMod (2 ^ 16 - 1))
      = (c.toNat : ZMod (2 ^ 16 - 1)) + (o.toNat : ZMod (2 ^ 16 - 1)) := by
    rw [← Nat.cast_add, ← Nat.cast_add, ZMod.natCast_eq_natCast_iff, Nat.ModEq, folded_toNat]
    split_ifs <;> omega
  rw [eq_sub_iff_add_eq]
  exact hcast

/-- A fixup takes the old word out and puts the new one in, unless there is no
checksum. -/
theorem residue_fixup {u : Bool} (h : u = true → c ≠ 0#16) :
    residue (pfCksumFixup c o n u) = residue c + residue o - residue n := by
  rw [pfCksumFixup_eq]
  cases u with
  | false => exact residue_folded c o n
  | true =>
      have hc : (c == 0#16) = false := beq_eq_false_iff_ne.mpr (h rfl)
      rw [hc, Bool.true_and, Bool.true_and]
      by_cases hz : folded c o n = 0#16
      · have hres := residue_folded c o n
        rw [hz, residue_zero] at hres
        rw [hz]
        rw [← hres]
        rfl
      · have hz' : (folded c o n == 0#16) = false := beq_eq_false_iff_ne.mpr hz
        rw [hz']
        exact residue_folded c o n

theorem fixup_udp_zero : pfCksumFixup 0#16 o n true = 0#16 := rfl

/-- A UDP checksum does not become zero. -/
theorem fixup_udp_ne_zero (h : c ≠ 0#16) : pfCksumFixup c o n true ≠ 0#16 := by
  rw [pfCksumFixup_eq]
  have hc : (c == 0#16) = false := beq_eq_false_iff_ne.mpr h
  rw [hc, Bool.true_and, Bool.true_and]
  by_cases hz : folded c o n = 0#16
  · rw [hz]
    decide
  · have hz' : (folded c o n == 0#16) = false := beq_eq_false_iff_ne.mpr hz
    rw [hz']
    exact hz

/-- Other checksums may. -/
theorem fixup_eq_zero : pfCksumFixup c o n false = 0#16 ↔
    c.toNat + o.toNat = n.toNat ∨ (c.toNat = 0 ∧ o.toNat = 0 ∧ n.toNat = 65535) := by
  rw [pfCksumFixup_eq, Bool.false_and, Bool.false_and, if_neg Bool.false_ne_true,
    if_neg Bool.false_ne_true, ← BitVec.toNat_inj, folded_toNat, BitVec.toNat_zero]
  split_ifs <;> omega

end Fixup

/-! ## Many words -/

/-- A checksum is `c`, or there is none: the sum of it and the words it covers is all
ones. -/
def Holds (u : Bool) (c : Word) (ws : List Word) : Prop :=
  (u = true ∧ c = 0#16) ∨ OnesSum.sum (c :: ws) = BitVec.allOnes 16

/-- The checksum moves by `d`, and a UDP checksum neither appears nor disappears. -/
structure Fixed (u : Bool) (c c' : Word) (d : ZMod (2 ^ 16 - 1)) : Prop where
  residue : (u = true → c ≠ 0#16) → residue c' = residue c + d
  zero : u = true → (c' = 0#16 ↔ c = 0#16)

section Fixed

variable {u : Bool} {c c' c'' : Word} {d d' : ZMod (2 ^ 16 - 1)}

theorem Fixed.trans (h : Fixed u c c' d) (h' : Fixed u c' c'' d') : Fixed u c c'' (d + d') := by
  constructor
  · intro hc
    have hc' : u = true → c' ≠ 0#16 := fun hu hz => hc hu ((h.zero hu).mp hz)
    rw [h'.residue hc', h.residue hc, add_assoc]
  · intro hu
    exact (h'.zero hu).trans (h.zero hu)

theorem fixed_fixup (u : Bool) (c o n : Word) :
    Fixed u c (pfCksumFixup c o n u) (residue o - residue n) := by
  constructor
  · intro h
    rw [residue_fixup c o n h, add_sub_assoc]
  · rintro rfl
    by_cases hc : c = 0#16
    · rw [hc, fixup_udp_zero]
    · exact ⟨fun h => absurd h (fixup_udp_ne_zero c o n hc), fun h => absurd h hc⟩

theorem fixed_foldl (u : Bool) (l : List (Word × Word)) : ∀ c,
    Fixed u c (l.foldl (fun c p => pfCksumFixup c p.1 p.2 u) c)
      (total (l.map Prod.fst) - total (l.map Prod.snd)) := by
  induction l with
  | nil => exact fun c => ⟨fun _ => by simp, fun _ => Iff.rfl⟩
  | cons p l ih =>
      intro c
      have h := (fixed_fixup u c p.1 p.2).trans (ih (pfCksumFixup c p.1 p.2 u))
      rw [List.foldl_cons, List.map_cons, List.map_cons, total_cons, total_cons]
      convert h using 1
      ring

theorem words_length (af : Af) (a : PfAddr) : (words af a).length = af.len := by
  cases af <;> simp [words, Af.len]

theorem fixed_addr (u : Bool) (c : Word) (ao an : PfAddr) (af : Af) :
    Fixed u c (fixupAddr c ao an u af) (total (words af ao) - total (words af an)) := by
  have h := fixed_foldl u (List.zip (words af ao) (words af an)) c
  have hlen : (words af ao).length = (words af an).length := by
    rw [words_length, words_length]
  rwa [List.map_fst_zip hlen.le, List.map_snd_zip hlen.ge] at h

theorem words_pfAcpy (a b : PfAddr) (af : Af) : words af (pfAcpy a b af) = words af b := by
  apply List.ext_getElem
  · rw [words_length, words_length]
  · intro i h1 h2
    have hi : i < af.len := by rwa [words_length] at h1
    simp [words, pfAcpy, hi]

/-- A checksum over something that is not zero: if it misses `x` of what its words move
by, it holds only where there is none or nothing is missed. -/
theorem holds_fixed_iff {x : ZMod (2 ^ 16 - 1)} {ws ws' : List Word} (h : Holds u c ws)
    (hne : ∃ b ∈ ws', b ≠ 0#16) (hfix : Fixed u c c' d) (hx : total ws - total ws' = d + x) :
    Holds u c' ws' ↔ (u = true ∧ c = 0#16) ∨ x = 0 := by
  by_cases hz : u = true ∧ c = 0#16
  · exact ⟨fun _ => Or.inl hz, fun _ => Or.inl ⟨hz.1, (hfix.zero hz.1).mpr hz.2⟩⟩
  · have hsum := h.resolve_left hz
    have hres := hfix.residue fun hu hc => hz ⟨hu, hc⟩
    have hz' : ¬ (u = true ∧ c' = 0#16) := fun h => hz ⟨h.1, (hfix.zero h.1).mp h.2⟩
    obtain ⟨b, hb, hb0⟩ := hne
    rw [sum_eq_allOnes (by decide), total_cons] at hsum
    rw [Holds, or_iff_right hz', or_iff_right hz, sum_eq_allOnes (by decide), total_cons, hres]
    have hx' : OnesSum.residue c + d + total ws' = -x := by
      linear_combination hsum.2 - hx
    rw [hx', neg_eq_zero, and_iff_right]
    exact ⟨b, List.mem_cons_of_mem _ hb, hb0⟩

/-- What moves as its words do holds as before. -/
theorem Holds.fix {ws ws' : List Word} (h : Holds u c ws) (hne : ∃ b ∈ ws', b ≠ 0#16)
    (hfix : Fixed u c c' (total ws - total ws')) : Holds u c' ws' :=
  (holds_fixed_iff h hne hfix (add_zero _).symm).mpr (Or.inr rfl)

end Fixed

/-! ## Packets -/

/-- A packet as its transport checksum covers it. `rest` has the protocol and the length
of the pseudo-header, the rest of the transport header and the data; the protocol is not
zero. -/
structure Packet where
  af : Af
  src : PfAddr
  dst : PfAddr
  sport : Word
  dport : Word
  sum : Word
  rest : List Word
  rest_ne : ∃ b ∈ rest, b ≠ 0#16

def Packet.covered (p : Packet) : List Word :=
  words p.af p.src ++ words p.af p.dst ++ [p.sport, p.dport] ++ p.rest

/-- Which address and port. -/
inductive Side where
  | src | dst
deriving DecidableEq, Repr

def Packet.changeAp (p : Packet) (side : Side) (an : PfAddr) (pn : Word) (u : Bool) : Packet :=
  match side with
  | .src =>
    let (a, port, pc) := pfChangeAp p.src p.sport p.sum an pn u p.af
    { p with src := a, sport := port, sum := pc }
  | .dst =>
    let (a, port, pc) := pfChangeAp p.dst p.dport p.sum an pn u p.af
    { p with dst := a, dport := port, sum := pc }

theorem Packet.covered_ne (p : Packet) : ∃ b ∈ p.covered, b ≠ 0#16 := by
  obtain ⟨b, hb, hb0⟩ := p.rest_ne
  exact ⟨b, List.mem_append_right _ hb, hb0⟩

theorem Packet.changeAp_fixed (p : Packet) (side : Side) (an : PfAddr) (pn : Word) (u : Bool) :
    Fixed u p.sum (p.changeAp side an pn u).sum
      (total p.covered - total (p.changeAp side an pn u).covered) := by
  cases side with
  | src =>
      have h := (fixed_addr u p.sum p.src an p.af).trans
        (fixed_fixup u (fixupAddr p.sum p.src an u p.af) p.sport pn)
      simp only [changeAp, pfChangeAp, covered, total_append, total_cons, words_pfAcpy]
      convert h using 1
      ring
  | dst =>
      have h := (fixed_addr u p.sum p.dst an p.af).trans
        (fixed_fixup u (fixupAddr p.sum p.dst an u p.af) p.dport pn)
      simp only [changeAp, pfChangeAp, covered, total_append, total_cons, words_pfAcpy]
      convert h using 1
      ring

/-- A row of rewrites. -/
def Packet.changes (u : Bool) (p : Packet) (l : List (Side × PfAddr × Word)) : Packet :=
  l.foldl (fun p x => p.changeAp x.1 x.2.1 x.2.2 u) p

theorem Packet.changes_fixed (u : Bool) (p : Packet) (l : List (Side × PfAddr × Word)) :
    Fixed u p.sum (p.changes u l).sum (total p.covered - total (p.changes u l).covered) := by
  induction l generalizing p with
  | nil => exact ⟨fun _ => by rw [changes, List.foldl_nil, sub_self, add_zero], fun _ => Iff.rfl⟩
  | cons x l ih =>
    have h := (p.changeAp_fixed x.1 x.2.1 x.2.2 u).trans (ih _)
    rwa [sub_add_sub_cancel] at h

/-- Rewrites that are undone, in whatever way, give the checksum back. TCP has two zeros. -/
theorem rewrites_undone (u : Bool) (p : Packet) (l : List (Side × PfAddr × Word))
    (h : (p.changes u l).covered = p.covered) :
    (p.changes u l).sum = p.sum ∨ u = false ∧ ((p.changes u l).sum = 0#16 ∧ p.sum = 0xffff#16 ∨
      (p.changes u l).sum = 0xffff#16 ∧ p.sum = 0#16) := by
  have hfixed := p.changes_fixed u l
  rw [h, sub_self] at hfixed
  generalize (p.changes u l).sum = c at hfixed ⊢
  by_cases hnone : u = true ∧ p.sum = 0#16
  · exact .inl (((hfixed.zero hnone.1).mpr hnone.2).trans hnone.2.symm)
  have hres := hfixed.residue fun hu hz => hnone ⟨hu, hz⟩
  rw [add_zero, residue, residue, ZMod.natCast_eq_natCast_iff, Nat.ModEq] at hres
  simp only [← BitVec.toNat_inj, BitVec.toNat_zero] at hnone ⊢
  change _ ∨ u = false ∧ (_ ∧ _ = 65535 ∨ _ = 65535 ∧ _)
  cases u with
  | false =>
    rw [eq_self, true_and]
    omega
  | true =>
    have hzero := hfixed.zero rfl
    simp only [← BitVec.toNat_inj, BitVec.toNat_zero] at hzero
    omega

/-- Out of a network and in again. -/
theorem rewrites_undone_back : ∃ p : Packet, p.sum = 0x1234#16 ∧
    (p.changes true [(.src, Vector.replicate 8 7, 9), (.src, p.src, p.sport)]).sum = p.sum := by
  refine ⟨⟨.inet, Vector.replicate 8 1, Vector.replicate 8 2, 3, 4, 0x1234, [17], 17, by decide,
    by decide⟩, rfl, (rewrites_undone true _ _ ?_).resolve_right nofun⟩
  decide

/-! ## ICMP errors -/

/-- An ICMP error. `icmpRest`, `ipRest` and `innerRest` are the other words that the
checksums of the message, of the quoted IP header and of the quoted datagram cover: the
ICMP type and the next header of ICMPv6, the version, and the protocol are not zero. -/
structure IcmpError where
  af : Af
  hdr : Inner
  icmpRest : List Word
  ipRest : List Word
  innerRest : List Word
  icmpRest_ne : ∃ b ∈ icmpRest, b ≠ 0#16
  ipRest_ne : ∃ b ∈ ipRest, b ≠ 0#16
  innerRest_ne : ∃ b ∈ innerRest, b ≠ 0#16

/-- The message; that of ICMPv6 has the outer addresses too, and no checksum in the
quoted header. -/
def IcmpError.icmpCovered (e : IcmpError) : List Word :=
  (match e.af with
    | .inet => [e.hdr.h2c]
    | .inet6 => (e.hdr.oa.map (words .inet6)).getD [])
  ++ words e.af e.hdr.ia ++ e.hdr.ip.toList ++ e.hdr.pc.toList ++ e.icmpRest

/-- The quoted IP header. -/
def IcmpError.ipCovered (e : IcmpError) : List Word := words e.af e.hdr.ia ++ e.ipRest

/-- The quoted datagram with its pseudo-header. -/
def IcmpError.innerCovered (e : IcmpError) : List Word :=
  words e.af e.hdr.ia ++ e.hdr.ip.toList ++ e.innerRest

def IcmpError.change (e : IcmpError) (na : PfAddr) (np : Word) (u : Bool) : IcmpError :=
  { e with hdr := pfChangeIcmp e.hdr na np u e.af }

/-- The checksums are valid: of the message, of the quoted header in IPv4, and of the
quoted datagram where there is one. -/
structure IcmpError.Valid (u : Bool) (e : IcmpError) : Prop where
  icmp : Holds false e.hdr.ic e.icmpCovered
  ip : e.af = .inet → Holds false e.hdr.h2c e.ipCovered
  inner : ∀ pc, e.hdr.pc = some pc → Holds u pc e.innerCovered

/-- The addresses cannot be told apart by a sum. -/
def SameSum (af : Af) (a b : PfAddr) : Prop := total (words af a) = total (words af b)

/-- One word taken out and one put in make a checksum zero. -/
def Cancels (c o n : Word) : Prop :=
  c.toNat + o.toNat = n.toNat ∨ (c.toNat = 0 ∧ o.toNat = 0 ∧ n.toNat = 65535)

/-- The ICMP checksum of an error that quotes UDP is zero after the port, and if it has a
UDP checksum, this too. -/
def Zeroed (e : Inner) (np : Word) : Prop :=
  match e.ip with
  | none => e.ic.toNat = 0
  | some oip =>
    match e.pc with
    | none => Cancels e.ic oip np
    | some pc =>
      if pc.toNat = 0 then Cancels e.ic oip np
      else (e.ic.toNat = 0 ∧ np.toNat = oip.toNat)
        ∨ ((e.ic.toNat = 0 ∨ e.ic.toNat = 65535)
          ∧ ((oip.toNat < np.toNat ∧ pc.toNat + oip.toNat ≤ np.toNat)
            ∨ (np.toNat < oip.toNat ∧ pc.toNat + oip.toNat ≤ 65535 + np.toNat)))

theorem fixup_udp_toNat {c : Word} (o n : Word) (h : c ≠ 0#16) :
    (pfCksumFixup c o n true).toNat =
      if (folded c o n).toNat = 0 then 65535 else (folded c o n).toNat := by
  have hc : (c == 0#16) = false := beq_eq_false_iff_ne.mpr h
  rw [pfCksumFixup_eq, hc, Bool.true_and, Bool.true_and]
  by_cases hz : folded c o n = 0#16
  · rw [hz]
    decide
  · have hz' : (folded c o n == 0#16) = false := beq_eq_false_iff_ne.mpr hz
    have hn : (folded c o n).toNat ≠ 0 := fun h0 => hz (BitVec.eq_of_toNat_eq h0)
    rw [hz', if_neg hn]
    rfl

theorem changePort_zero (e : Inner) (np : Word) : (changePort e np true).ic = 0#16 ↔ Zeroed e np := by
  unfold changePort Zeroed
  cases e.ip with
  | none => exact (BitVec.toNat_inj).symm
  | some oip =>
      cases hpc : e.pc with
      | none => exact fixup_eq_zero e.ic oip np
      | some pc =>
          dsimp only
          by_cases hz : pc.toNat = 0
          · have hz' : pc = 0#16 := BitVec.eq_of_toNat_eq hz
            have hsame : ∀ x : Word, pfCksumFixup x 0#16 0#16 false = 0#16 ↔ x = 0#16 := by
              intro x
              rw [fixup_eq_zero, ← BitVec.toNat_inj]
              simp
            rw [if_pos hz, hz', fixup_udp_zero, hsame, fixup_eq_zero]
            rfl
          · have hne : pc ≠ 0#16 := fun h => hz (by rw [h]; rfl)
            have hlt := e.ic.isLt
            have hlt' := pc.isLt
            have hlt₁ := oip.isLt
            have hlt₂ := np.isLt
            have hic : (pfCksumFixup e.ic oip np false).toNat = (folded e.ic oip np).toNat := by
              rw [pfCksumFixup_eq]
              rfl
            rw [if_neg hz, fixup_eq_zero, fixup_udp_toNat oip np hne, hic, folded_toNat, folded_toNat]
            split_ifs <;> omega

section Change

variable (e : IcmpError) (na : PfAddr) (np : Word) (u : Bool)

/-- The port moves the ICMP checksum and the inner one. -/
theorem changePort_fixed (h : Inner) :
    Fixed false h.ic (changePort h np u).ic
        (total (h.ip.toList ++ h.pc.toList)
          - total ((changePort h np u).ip.toList ++ (changePort h np u).pc.toList))
      ∧ (∀ pc, h.pc = some pc → ∃ pc', (changePort h np u).pc = some pc'
        ∧ Fixed u pc pc' (total h.ip.toList - total (changePort h np u).ip.toList)) := by
  have hrefl : ∀ (u : Bool) (c : Word), Fixed u c c 0 := fun u c =>
    ⟨fun _ => (add_zero _).symm, fun _ => Iff.rfl⟩
  unfold changePort
  cases hip : h.ip with
  | none =>
      refine ⟨?_, fun pc hpc => ⟨pc, hpc, ?_⟩⟩
      · rw [hip, sub_self]
        exact hrefl false h.ic
      · rw [hip, sub_self]
        exact hrefl u pc
  | some oip =>
      have hport := fixed_fixup false h.ic oip np
      cases hpc : h.pc with
      | none =>
          refine ⟨?_, fun pc hpc' => ?_⟩
          · simpa [hpc] using hport
          · cases hpc'
      | some opc =>
          refine ⟨?_, fun pc hpc' => ?_⟩
          · have hboth := hport.trans (fixed_fixup false (pfCksumFixup h.ic oip np false) opc
              (pfCksumFixup opc oip np u))
            simp only [Option.toList_some, total_append, total_cons, total_nil, add_zero]
            convert hboth using 1
            ring
          · obtain rfl := Option.some.inj hpc'
            refine ⟨_, rfl, ?_⟩
            simpa using fixed_fixup u opc oip np

/-- The addresses that the ICMP checksum covers. -/
def addrs (af : Af) (h : Inner) : List Word :=
  (match af with
    | .inet => []
    | .inet6 => (h.oa.map (words .inet6)).getD [])
  ++ words af h.ia

/-- The rest of the message does not change. -/
theorem pfChangeIcmp_rest (h : Inner) (af : Af) :
    (pfChangeIcmp h na np u af).ip = (changePort h np u).ip
      ∧ (pfChangeIcmp h na np u af).pc = (changePort h np u).pc := by
  unfold pfChangeIcmp changeOuter changeInner
  cases af <;> cases (changePort h np u).oa <;> exact ⟨rfl, rfl⟩

theorem pfChangeIcmp_ia (h : Inner) (af : Af) :
    words af (pfChangeIcmp h na np u af).ia = words af na := by
  have hia : (pfChangeIcmp h na np u af).ia = pfAcpy (changePort h np u).ia na af := by
    unfold pfChangeIcmp changeOuter changeInner
    cases af <;> cases (changePort h np u).oa <;> rfl
  rw [hia, words_pfAcpy]

theorem changePort_addrs (h : Inner) (af : Af) :
    addrs af (changePort h np u) = addrs af h ∧ (changePort h np u).h2c = h.h2c
      ∧ (changePort h np u).ia = h.ia := by
  unfold changePort
  cases h.ip with
  | none => exact ⟨rfl, rfl, rfl⟩
  | some oip => cases h.pc <;> exact ⟨rfl, rfl, rfl⟩

/-- In IPv4 the quoted header and its checksum move both checksums. -/
theorem changeInet_fixed (h : Inner) :
    let h' := changeOuter (changeInner h na u .inet) na u .inet
    Fixed false h.h2c h'.h2c (total (words .inet h.ia) - total (words .inet na))
      ∧ Fixed false h.ic h'.ic (total (words .inet h.ia) - total (words .inet na)
        + (residue h.h2c - residue h'.h2c)) := by
  have hout : ∀ h : Inner, (changeOuter h na u .inet).h2c = h.h2c
      ∧ (changeOuter h na u .inet).ic = h.ic := by
    intro h
    unfold changeOuter
    cases h.oa <;> exact ⟨rfl, rfl⟩
  intro h'
  have h2c : h'.h2c = fixupAddr h.h2c h.ia na false .inet := (hout _).1
  have hic : h'.ic = pfCksumFixup (fixupAddr h.ic h.ia na false .inet) h.h2c h'.h2c false := by
    rw [h2c]
    exact (hout _).2
  refine ⟨?_, ?_⟩
  · rw [h2c]
    exact fixed_addr false h.h2c h.ia na .inet
  · rw [hic]
    exact (fixed_addr false h.ic h.ia na .inet).trans (fixed_fixup false _ h.h2c h'.h2c)

/-- In IPv6 the addresses move the ICMP checksum as if it were one of UDP. -/
theorem changeInet6_fixed (h : Inner) :
    let h' := changeOuter (changeInner h na u .inet6) na u .inet6
    Fixed u h.ic h'.ic (total (addrs .inet6 h) - total (addrs .inet6 h')) := by
  have hin := fixed_addr u h.ic h.ia na .inet6
  intro h'
  cases hoa : h.oa with
  | none =>
      have hh' : h' = changeInner h na u .inet6 := by
        have : (changeInner h na u .inet6).oa = none := hoa
        simp only [h', changeOuter, this]
      rw [hh']
      simpa [addrs, changeInner, hoa, words_pfAcpy] using hin
  | some ooa =>
      have hoa' : (changeInner h na u .inet6).oa = some ooa := hoa
      have hboth := hin.trans (fixed_addr u (fixupAddr h.ic h.ia na u .inet6) ooa na .inet6)
      have hic : h'.ic = fixupAddr (fixupAddr h.ic h.ia na u .inet6) ooa na u .inet6 := by
        simp only [h', changeOuter, hoa']
        rfl
      have haddrs : addrs .inet6 h' = words .inet6 na ++ words .inet6 na := by
        simp [h', addrs, changeOuter, hoa, changeInner, words_pfAcpy]
      rw [hic, haddrs]
      convert hboth using 1
      simp only [addrs, hoa, Option.map_some, Option.getD_some, total_append]
      ring

/-- The addresses in their place. -/
def newAddrs (e : IcmpError) (na : PfAddr) : List Word :=
  (match e.hdr.oa with
    | none => []
    | some _ => words .inet6 na)
  ++ words .inet6 na

theorem addrs_change (h : e.af = .inet6) : addrs .inet6 (e.change na np u).hdr = newAddrs e na := by
  have hoa : (changePort e.hdr np u).oa = e.hdr.oa := by
    unfold changePort
    cases e.hdr.ip with
    | none => rfl
    | some oip => cases e.hdr.pc <;> rfl
  unfold IcmpError.change
  rw [h]
  unfold pfChangeIcmp addrs newAddrs changeOuter changeInner
  cases ho : e.hdr.oa with
  | none => simp [hoa, ho, words_pfAcpy]
  | some ooa => simp [hoa, ho, words_pfAcpy]

theorem total_icmpCovered : total e.icmpCovered
    = (match e.af with
        | .inet => residue e.hdr.h2c
        | .inet6 => 0)
      + total (addrs e.af e.hdr) + total (e.hdr.ip.toList ++ e.hdr.pc.toList) + total e.icmpRest := by
  unfold IcmpError.icmpCovered addrs
  cases e.af with
  | inet =>
      simp only [total_append, total_cons, total_nil]
      ring
  | inet6 =>
      simp only [total_append]
      ring

theorem icmpCovered_ne : ∃ b ∈ e.icmpCovered, b ≠ 0#16 := by
  obtain ⟨b, hb, hb0⟩ := e.icmpRest_ne
  exact ⟨b, List.mem_append_right _ hb, hb0⟩

theorem icmp_kept_inet (haf : e.af = .inet) (h : Holds false e.hdr.ic e.icmpCovered) :
    Holds false (e.change na np u).hdr.ic (e.change na np u).icmpCovered := by
  have hport := (changePort_fixed np u e.hdr).1
  obtain ⟨haddrs, h2c, hia⟩ := changePort_addrs np u e.hdr .inet
  have hin := (changeInet_fixed na u (changePort e.hdr np u)).2
  have hrest := pfChangeIcmp_rest na np u e.hdr .inet
  have hboth := hport.trans hin
  have hhdr : (e.change na np u).hdr = pfChangeIcmp e.hdr na np u .inet := by
    rw [IcmpError.change, haf]
  refine h.fix (icmpCovered_ne _) ?_
  convert hboth using 1
  · rw [hhdr]
    rfl
  · rw [total_icmpCovered, total_icmpCovered]
    have haf' : (e.change na np u).af = .inet := haf
    rw [haf, haf', hhdr, hrest.1, hrest.2]
    simp only [addrs, List.nil_append, pfChangeIcmp_ia]
    rw [h2c, hia]
    have hr : (e.change na np u).icmpRest = e.icmpRest := rfl
    rw [hr]
    simp only [pfChangeIcmp]
    ring

/-- A checksum that a UDP fixup leaves at zero has missed all of it. -/
theorem holds_udp_fixed_iff {u : Bool} {c c' : Word} {d : ZMod (2 ^ 16 - 1)} {ws ws' : List Word}
    (h : Holds false c ws) (hne : ∃ b ∈ ws', b ≠ 0#16) (hfix : Fixed u c c' d)
    (hd : total ws - total ws' = d) : Holds false c' ws' ↔ (u = true → c = 0#16 → d = 0) := by
  by_cases hz : u = true ∧ c = 0#16
  · have hstay : Fixed false c c' 0 := by
      rw [hz.2, (hfix.zero hz.1).mpr hz.2]
      exact ⟨fun _ => (add_zero _).symm, fun h => Bool.noConfusion h⟩
    rw [holds_fixed_iff h hne hstay (by rw [hd, zero_add])]
    simp [hz.1, hz.2]
  · have hmove : Fixed false c c' d :=
      ⟨fun _ => hfix.residue fun hu hc => hz ⟨hu, hc⟩, fun h => Bool.noConfusion h⟩
    refine ⟨fun _ hu hc => absurd ⟨hu, hc⟩ hz, fun _ => h.fix hne ?_⟩
    rw [hd]
    exact hmove

theorem icmp_kept_inet6 (haf : e.af = .inet6) (h : Holds false e.hdr.ic e.icmpCovered) :
    Holds false (e.change na np u).hdr.ic (e.change na np u).icmpCovered
      ↔ (u = true → Zeroed e.hdr np → total (addrs .inet6 e.hdr) = total (newAddrs e na)) := by
  have hport := (changePort_fixed np u e.hdr).1
  obtain ⟨haddrs, -, -⟩ := changePort_addrs np u e.hdr .inet6
  have hin := changeInet6_fixed na u (changePort e.hdr np u)
  have hrest := pfChangeIcmp_rest na np u e.hdr .inet6
  have hnew := addrs_change e na np u haf
  have haf' : (e.change na np u).af = .inet6 := haf
  have hhdr : (e.change na np u).hdr = pfChangeIcmp e.hdr na np u .inet6 := by
    rw [IcmpError.change, haf]
  -- the message between the two steps: the port has changed, the addresses have not
  let mid : IcmpError := { e with hdr := changePort e.hdr np u }
  have hmaf : mid.af = .inet6 := haf
  have hmid : Holds false mid.hdr.ic mid.icmpCovered := by
    refine h.fix (icmpCovered_ne mid) ?_
    convert hport using 1
    rw [total_icmpCovered, total_icmpCovered, haf]
    simp only [mid, haddrs]
    ring
  have hd : total mid.icmpCovered - total (e.change na np u).icmpCovered
      = total (addrs .inet6 e.hdr) - total (newAddrs e na) := by
    have hr : (e.change na np u).icmpRest = e.icmpRest := rfl
    rw [total_icmpCovered, total_icmpCovered, hmaf, haf', hnew, hhdr, hrest.1, hrest.2, hr]
    simp only [mid, haddrs]
    ring
  have hfix : Fixed u mid.hdr.ic (e.change na np u).hdr.ic
      (total (addrs .inet6 e.hdr) - total (newAddrs e na)) := by
    rw [← hnew, ← haddrs, hhdr]
    exact hin
  rw [holds_udp_fixed_iff hmid (icmpCovered_ne _) hfix hd, sub_eq_zero]
  refine forall_congr' fun hu => ?_
  subst hu
  rw [← changePort_zero]

/-- The checksum of the quoted header, in IPv4. -/
theorem ip_kept (haf : e.af = .inet) (h : Holds false e.hdr.h2c e.ipCovered) :
    Holds false (e.change na np u).hdr.h2c (e.change na np u).ipCovered := by
  obtain ⟨-, h2c, hia⟩ := changePort_addrs np u e.hdr .inet
  have hin := (changeInet_fixed na u (changePort e.hdr np u)).1
  have hhdr : (e.change na np u).hdr = pfChangeIcmp e.hdr na np u .inet := by
    rw [IcmpError.change, haf]
  have haf' : (e.change na np u).af = .inet := haf
  obtain ⟨b, hb, hb0⟩ := e.ipRest_ne
  refine h.fix ⟨b, List.mem_append_right _ hb, hb0⟩ ?_
  rw [h2c, hia] at hin
  convert hin using 1
  · rw [hhdr]
    rfl
  · unfold IcmpError.ipCovered
    rw [haf, haf', hhdr, pfChangeIcmp_ia]
    have hr : (e.change na np u).ipRest = e.ipRest := rfl
    rw [hr, total_append, total_append]
    ring

/-- The checksum of the quoted datagram misses the address. -/
theorem inner_kept {pc : Word} (hpc : e.hdr.pc = some pc) (h : Holds u pc e.innerCovered) :
    (∀ pc', (e.change na np u).hdr.pc = some pc' → Holds u pc' (e.change na np u).innerCovered)
      ↔ (u = true ∧ pc = 0#16) ∨ SameSum e.af e.hdr.ia na := by
  obtain ⟨pc', hpc', hfix⟩ := (changePort_fixed np u e.hdr).2 pc hpc
  have hrest := pfChangeIcmp_rest na np u e.hdr e.af
  have hpc'' : (e.change na np u).hdr.pc = some pc' := hrest.2.trans hpc'
  obtain ⟨b, hb, hb0⟩ := e.innerRest_ne
  have hne : ∃ b ∈ (e.change na np u).innerCovered, b ≠ 0#16 :=
    ⟨b, List.mem_append_right _ hb, hb0⟩
  have hx : total e.innerCovered - total (e.change na np u).innerCovered
      = (total e.hdr.ip.toList - total (changePort e.hdr np u).ip.toList)
        + (total (words e.af e.hdr.ia) - total (words e.af na)) := by
    have hip : (e.change na np u).hdr.ip = (changePort e.hdr np u).ip := hrest.1
    have hia : words (e.change na np u).af (e.change na np u).hdr.ia = words e.af na :=
      pfChangeIcmp_ia na np u e.hdr e.af
    have hr : (e.change na np u).innerRest = e.innerRest := rfl
    unfold IcmpError.innerCovered
    rw [hip, hia, hr]
    simp only [total_append]
    ring
  have hsame : SameSum e.af e.hdr.ia na ↔ total (words e.af e.hdr.ia) - total (words e.af na) = 0 :=
    sub_eq_zero.symm
  rw [hpc'', hsame, ← holds_fixed_iff h hne hfix hx]
  simp

end Change

/-- Where `pf_change_icmp` keeps the checksums: the quoted datagram has no checksum to
keep or the address does not matter to it; and the checksum of an ICMPv6 error that
quotes UDP does not go through zero, or the addresses do not matter to it. -/
structure Kept (u : Bool) (e : IcmpError) (na : PfAddr) (np : Word) : Prop where
  inner : ∀ pc, e.hdr.pc = some pc → (u = true ∧ pc = 0#16) ∨ SameSum e.af e.hdr.ia na
  icmp : e.af = .inet6 → u = true → Zeroed e.hdr np →
    total (addrs .inet6 e.hdr) = total (newAddrs e na)

theorem pfChangeIcmp_valid_iff (u : Bool) (e : IcmpError) (na : PfAddr) (np : Word)
    (h : e.Valid u) : (e.change na np u).Valid u ↔ Kept u e na np := by
  constructor
  · intro h'
    constructor
    · intro pc hpc
      exact (inner_kept e na np u hpc (h.inner pc hpc)).mp h'.inner
    · intro haf
      exact (icmp_kept_inet6 e na np u haf h.icmp).mp h'.icmp
  · intro hk
    constructor
    · cases haf : e.af with
      | inet => exact icmp_kept_inet e na np u haf h.icmp
      | inet6 => exact (icmp_kept_inet6 e na np u haf h.icmp).mpr (hk.icmp haf)
    · intro haf
      exact ip_kept e na np u haf (h.ip haf)
    · cases hpc : e.hdr.pc with
      | none =>
          intro pc' hpc'
          have hnone : (changePort e.hdr np u).pc = none := by
            unfold changePort
            cases e.hdr.ip with
            | none => exact hpc
            | some oip => rw [hpc]
          rw [IcmpError.change, (pfChangeIcmp_rest na np u e.hdr e.af).2, hnone] at hpc'
          cases hpc'
      | some pc => exact (inner_kept e na np u hpc (h.inner pc hpc)).mpr (hk.inner pc hpc)

/-- Rewriting an address and a port, four bytes, or an IPv6 address keeps a checksum
valid, and a UDP checksum neither appears nor disappears. Rewriting an ICMP error keeps
its checksums valid exactly where `Kept` says. -/
theorem rewrites_keep_checksums (u : Bool) :
    (∀ (p : Packet) (side : Side) (an : PfAddr) (pn : Word), Holds u p.sum p.covered →
      Holds u (p.changeAp side an pn u).sum (p.changeAp side an pn u).covered
        ∧ (u = true → ((p.changeAp side an pn u).sum = 0#16 ↔ p.sum = 0#16)))
    ∧ (∀ (a an : BitVec 32) (c : Word) (rest : List Word), (∃ b ∈ rest, b ≠ 0#16) →
      Holds u c ((halves a).1 :: (halves a).2 :: rest) →
      ∃ c', (pfChangeA a (some c) an u).2 = some c'
        ∧ Holds u c' ((halves (pfChangeA a (some c) an u).1).1
          :: (halves (pfChangeA a (some c) an u).1).2 :: rest)
        ∧ (u = true → (c' = 0#16 ↔ c = 0#16)))
    ∧ (∀ (a an : PfAddr) (c : Word) (rest : List Word), (∃ b ∈ rest, b ≠ 0#16) →
      Holds u c (words .inet6 a ++ rest) →
      ∃ c', (pfChangeA6 a (some c) an u).2 = some c'
        ∧ Holds u c' (words .inet6 (pfChangeA6 a (some c) an u).1 ++ rest)
        ∧ (u = true → (c' = 0#16 ↔ c = 0#16)))
    ∧ (∀ (e : IcmpError) (na : PfAddr) (np : Word), e.Valid u →
      ((e.change na np u).Valid u ↔ Kept u e na np)) := by
  refine ⟨fun p side an pn h => ?_, fun a an c rest hne h => ?_, fun a an c rest hne h => ?_,
    fun e na np h => pfChangeIcmp_valid_iff u e na np h⟩
  · have hfix := p.changeAp_fixed side an pn u
    exact ⟨h.fix (Packet.covered_ne _) hfix, hfix.zero⟩
  · have hfix := (fixed_fixup u c (halves a).1 (halves an).1).trans
      (fixed_fixup u (pfCksumFixup c (halves a).1 (halves an).1 u) (halves a).2 (halves an).2)
    obtain ⟨b, hb, hb0⟩ := hne
    refine ⟨_, rfl, h.fix ⟨b, ?_, hb0⟩ ?_, hfix.zero⟩
    · exact List.mem_cons_of_mem _ (List.mem_cons_of_mem _ hb)
    · convert hfix using 1
      simp only [pfChangeA, total_cons]
      ring
  · have hfix := fixed_addr u c a an .inet6
    obtain ⟨b, hb, hb0⟩ := hne
    refine ⟨_, rfl, h.fix ⟨b, List.mem_append_right _ hb, hb0⟩ ?_, hfix.zero⟩
    convert hfix using 1
    simp only [pfChangeA6, words_pfAcpy, total_append]
    ring

/-! ## An ICMPv6 error -/

/-- A port unreachable for a UDP datagram without a checksum, from `fd00::1` to
`fd00::2`. The words of the message sum up to all ones, so its checksum is zero. -/
def unreachable : IcmpError where
  af := .inet6
  hdr :=
    { ia := #v[0xfd00, 0, 0, 0, 0, 0, 0, 1]
      ip := some 53
      oa := some #v[0xfd00, 0, 0, 0, 0, 0, 0, 2]
      pc := some 0
      h2c := 0
      ic := 0 }
  icmpRest := [58, 0x0104, 0x0488]
  ipRest := [0x6000]
  innerRest := [17]
  icmpRest_ne := ⟨58, by decide, by decide⟩
  ipRest_ne := ⟨0x6000, by decide, by decide⟩
  innerRest_ne := ⟨17, by decide, by decide⟩

/-- Translated to `fd00::9`, the checksum is still zero. -/
theorem rewrite_keeps_zero :
    unreachable.Valid true
      ∧ (unreachable.change #v[0xfd00, 0, 0, 0, 0, 0, 0, 9] 53 true).hdr.ic = 0#16
      ∧ ¬ (unreachable.change #v[0xfd00, 0, 0, 0, 0, 0, 0, 9] 53 true).Valid true := by
  refine ⟨⟨Or.inr (by decide +kernel), fun h => absurd h (by decide), fun pc hpc => ?_⟩, by decide +kernel,
    fun h => ?_⟩
  · obtain rfl := Option.some.inj hpc
    exact Or.inl ⟨rfl, rfl⟩
  · rcases h.icmp with ⟨h0, -⟩ | hsum
    · cases h0
    · exact absurd hsum (by decide +kernel)

end Obsd.PfCksum
