import Obsd.BpfSafety

/-!
# Filtering an mbuf chain

`bpf_filter` on a chain against `bpf_filter` on the same bytes in one
piece. Bytes are always found. A half word that starts with the last byte
of an mbuf takes the first byte of the next one without a look at its
length, and a word looks no further than the next mbuf. So the two agree
exactly on the chains in which each mbuf with data is followed by one that
has enough of it (`ChainOk`).
-/

namespace Obsd.Bpf

/-! ## Loads from a chain -/

/-- A load from the bytes in one piece, the index taken as a number. -/
def loadBytes (n : Nat) (p : List UInt8) (k : Nat) : Load :=
  if k + n ≤ p.length then .val (extract ((p.drop k).take n)) else .reject

/-- What an mbuf that holds some bytes asks of the next: not to be empty, and to hold the
rest of any word that begins in the last three bytes, if the packet does. -/
def JoinOk (m m0 : List UInt8) (rest : List (List UInt8)) : Prop :=
  m ≠ [] → m0 ≠ [] ∧ ∀ j, 1 ≤ j → j ≤ 3 → j ≤ m.length →
    4 ≤ j + (m0.length + rest.flatten.length) → 4 ≤ j + m0.length

def ChainOk : List (List UInt8) → Prop
  | m :: m0 :: rest => JoinOk m m0 rest ∧ ChainOk (m0 :: rest)
  | _ => True

theorem ChainOk.tail {m : List UInt8} {rest : List (List UInt8)} (h : ChainOk (m :: rest)) :
    ChainOk rest := by
  cases rest with
  | nil => trivial
  | cons m0 rest => exact h.2

/-- Behind the first mbuf a load is one from the rest of the chain. -/
theorem loadChain_skip (sz : Size) {m : Mbuf} {k : Nat} (next : List Mbuf)
    (hk : m.data.length ≤ k) :
    loadChain sz (m :: next) k = loadChain sz next (k - m.data.length) := by
  have hm : mindex (m :: next) k = mindex next (k - m.data.length) := by
    rw [mindex, if_pos hk]
  cases sz with
  | w => simp only [loadChain, bpfMXword, hm]
  | h => simp only [loadChain, bpfMXhalf, hm]
  | b => simp only [loadChain, bpfMXbyte, hm]

theorem loadBytes_skip (n : Nat) {m : List UInt8} {k : Nat} (rest : List UInt8)
    (hk : m.length ≤ k) : loadBytes n (m ++ rest) k = loadBytes n rest (k - m.length) := by
  unfold loadBytes
  rw [List.length_append, List.drop_append, List.drop_eq_nil_of_le hk, List.nil_append]
  congr 1
  simp only [eq_iff_iff]
  omega

theorem mindex_head {m : Mbuf} {k : Nat} (next : List Mbuf) (hk : k < m.data.length) :
    mindex (m :: next) k = some (m, next, k) := by
  rw [mindex, if_neg (by omega)]

/-- All the bytes are in the first mbuf. -/
theorem loadBytes_head {n k : Nat} {m : List UInt8} (rest : List UInt8) (hk : k + n ≤ m.length) :
    loadBytes n (m ++ rest) k = .val (extract ((m.drop k).take n)) := by
  unfold loadBytes
  rw [if_pos (by rw [List.length_append]; omega), List.drop_append_of_le_length (by omega),
    List.take_append_of_le_length (by rw [List.length_drop]; omega)]

theorem bpfMXbyte_head {m : Mbuf} {k : Nat} (next : List Mbuf) (hk : k < m.data.length)
    (rest : List UInt8) : bpfMXbyte (m :: next) k = loadBytes 1 (m.data ++ rest) k := by
  rw [loadBytes_head rest hk, bpfMXbyte, mindex_head next hk]

theorem bpfMXhalf_head {m : Mbuf} {k : Nat} (next : List Mbuf) (hk : k < m.data.length)
    (hok : ChainOk ((m :: next).map Mbuf.data)) :
    bpfMXhalf (m :: next) k = loadBytes 2 ((m :: next).map Mbuf.data).flatten k := by
  rw [bpfMXhalf, mindex_head next hk]
  simp only
  rw [List.map_cons, List.flatten_cons]
  rcases Nat.lt_or_ge m.data.length (k + 2) with hlt | hge
  · rw [if_neg (by omega)]
    cases next with
    | nil =>
      unfold loadBytes
      rw [if_neg (by simp only [List.map_nil, List.flatten_nil, List.append_nil]; omega)]
    | cons m0 next =>
      have hjoin : JoinOk m.data m0.data (next.map Mbuf.data) := hok.1
      obtain ⟨hm0, -⟩ := hjoin (List.ne_nil_of_length_pos (Nat.zero_lt_of_lt hk))
      obtain ⟨c, data, hdata⟩ := List.exists_cons_of_ne_nil hm0
      have hone : (m.data.drop k).length = 1 := by rw [List.length_drop]; omega
      unfold loadBytes
      simp only [List.map_cons, List.flatten_cons, hdata, List.headD_cons]
      rw [if_pos (by simp only [List.length_append, List.length_cons]; omega),
        List.drop_append_of_le_length (by omega), List.take_append, hone,
        List.take_of_length_le (by omega)]
      simp
  · rw [if_pos hge, loadBytes_head _ hge]

theorem bpfMXword_head {m : Mbuf} {k : Nat} (next : List Mbuf) (hk : k < m.data.length)
    (hok : ChainOk ((m :: next).map Mbuf.data)) :
    bpfMXword (m :: next) k = loadBytes 4 ((m :: next).map Mbuf.data).flatten k := by
  rw [bpfMXword, mindex_head next hk]
  simp only
  rw [List.map_cons, List.flatten_cons]
  rcases Nat.lt_or_ge m.data.length (k + 4) with hlt | hge
  · rw [if_neg (by omega)]
    cases next with
    | nil =>
      unfold loadBytes
      rw [if_neg (by simp only [List.map_nil, List.flatten_nil, List.append_nil]; omega)]
    | cons m0 next =>
      have hrest : (m.data.drop k).length = m.data.length - k := List.length_drop
      have htake : (m.data.drop k).take 4 = m.data.drop k := List.take_of_length_le (by omega)
      have hjoin : JoinOk m.data m0.data (next.map Mbuf.data) := hok.1
      obtain ⟨-, hword⟩ := hjoin (List.ne_nil_of_length_pos (Nat.zero_lt_of_lt hk))
      have hj := hword (m.data.length - k) (by omega) (by omega) (by omega)
      simp only [List.map_cons, List.flatten_cons]
      unfold loadBytes
      rcases Nat.lt_or_ge (m0.data.length + m.data.length - k) 4 with hshort | hall
      · rw [if_pos hshort, if_neg]
        simp only [List.length_append]
        omega
      · rw [if_neg (by omega), if_pos (by simp only [List.length_append]; omega),
          List.drop_append_of_le_length (by omega), List.take_append, hrest,
          htake, List.take_append_of_le_length (by omega)]
  · rw [if_pos hge, loadBytes_head _ hge]

/-- **A load from a chain** is the load from its bytes, by induction over the chain. -/
theorem loadChain_eq (sz : Size) : ∀ (m : List Mbuf) (k : Nat), ChainOk (m.map Mbuf.data) →
    loadChain sz m k = loadBytes sz.bytes (m.map Mbuf.data).flatten k := by
  intro m
  induction m with
  | nil =>
    intro k _
    cases sz <;> simp [loadChain, bpfMXword, bpfMXhalf, bpfMXbyte, mindex, loadBytes, Size.bytes]
  | cons m next ih =>
    intro k hok
    rcases Nat.lt_or_ge k m.data.length with hlt | hge
    · cases sz with
      | w => exact bpfMXword_head next hlt hok
      | h => exact bpfMXhalf_head next hlt hok
      | b => exact bpfMXbyte_head next hlt _
    · rw [loadChain_skip sz next hge, ih _ hok.tail, List.map_cons, List.flatten_cons,
        loadBytes_skip _ _ hge]

/-! ## Filters -/

section
variable {arch : Arch} {m : List Mbuf}

theorem load_flat {p : List UInt8} (hne : p ≠ []) (sz : Size) (k : BitVec 32) :
    load arch (.flat p) sz k =
      if beyond arch sz k p.length then .reject else readFlat sz.bytes p k.toNat := by
  have hpos : p.length ≠ 0 := fun h => hne (List.length_eq_zero_iff.mp h)
  show (if beyond arch sz k p.length then if p.length ≠ 0 then Load.reject else .undefined
    else readFlat sz.bytes p k.toNat) = _
  rw [if_pos hpos]

theorem load_flat_eq {p : List UInt8} (hne : p ≠ []) (sz : Size) (k : BitVec 32)
    (hdef : load arch (.flat p) sz k ≠ .undefined) :
    load arch (.flat p) sz k = loadBytes sz.bytes p k.toNat := by
  have hmod : (k.toNat + sz.bytes) % 2 ^ arch.sizeT ≤ k.toNat + sz.bytes := Nat.mod_le _ _
  rw [load_flat hne] at hdef ⊢
  unfold readFlat at hdef ⊢
  unfold loadBytes
  rcases Nat.lt_or_ge p.length (k.toNat + sz.bytes) with hlt | hle
  · have hshort : ¬k.toNat + sz.bytes ≤ p.length := Nat.not_le_of_lt hlt
    split_ifs at hdef ⊢ with hb
    · rfl
    · exact absurd rfl hdef
  · have hfits : beyond arch sz k p.length = false := by
      rw [beyond_eq_false]
      split_ifs
      · exact hle
      · exact Nat.le_trans hmod hle
    rw [hfits, if_neg Bool.noConfusion, if_pos hle, if_pos hle]

/-- Where the load from the bytes is defined, the chain gives the same. -/
theorem load_chain_eq (hok : ChainOk (m.map Mbuf.data)) (hne : (m.map Mbuf.data).flatten ≠ [])
    (hlen : (m.map Mbuf.data).flatten.length < 2 ^ 32)
    (hsize : arch.sizeT = 32 ∨ arch.sizeT = 64) (sz : Size) (k : BitVec 32)
    (hdef : load arch (.flat (m.map Mbuf.data).flatten) sz k ≠ .undefined) :
    load arch (.chain m) sz k = load arch (.flat (m.map Mbuf.data).flatten) sz k := by
  have hbytes : 0 < sz.bytes := by cases sz <;> decide
  rw [load_flat_eq hne sz k hdef, ← loadChain_eq sz m k.toNat hok]
  cases hb : beyond arch sz k 0 with
  | true =>
    unfold load
    simp only [Packet.buflen, hb]
    rfl
  | false =>
    -- the sum is 2³², which no packet holds
    have hbuf : (Packet.flat (m.map Mbuf.data).flatten).buflen < 2 ^ 32 := hlen
    rw [Ne, load_eq_undefined, astray_of_size hsize hbuf] at hdef
    rw [beyond_eq_false] at hb
    refine absurd (.inr ?_) hdef
    split_ifs at hb with hsz
    · omega
    · have hle : sz.bytes ≤ 4 := by cases sz <;> decide
      rcases hsize with hsize | hsize <;> rw [hsize] at hb
      · exact ⟨hsize, hsz, by omega, by omega⟩
      · omega

/-- So does a whole case of the switch. -/
theorem exec_chain_eq (hok : ChainOk (m.map Mbuf.data)) (hne : (m.map Mbuf.data).flatten ≠ [])
    (hlen : (m.map Mbuf.data).flatten.length < 2 ^ 32)
    (hsize : arch.sizeT = 32 ∨ arch.sizeT = 64) (wirelen : BitVec 32) (p : Insn) (s : State)
    (body : Body)
    (hdef : ∀ e, exec arch (.flat (m.map Mbuf.data).flatten) wirelen p s body ≠ .undefined e) :
    exec arch (.chain m) wirelen p s body
      = exec arch (.flat (m.map Mbuf.data).flatten) wirelen p s body := by
  have hload : ∀ sz k, load arch (.flat (m.map Mbuf.data).flatten) sz k ≠ .undefined →
      load arch (.chain m) sz k = load arch (.flat (m.map Mbuf.data).flatten) sz k :=
    load_chain_eq hok hne hlen hsize
  cases body with
  | ldAbs sz =>
    simp only [exec] at hdef ⊢
    rw [hload]
    intro hundefined
    rw [hundefined] at hdef
    exact hdef _ rfl
  | ldInd sz =>
    simp only [exec] at hdef ⊢
    rw [hload]
    intro hundefined
    rw [hundefined] at hdef
    exact hdef _ rfl
  | ldxMsh =>
    simp only [exec] at hdef ⊢
    rw [hload]
    intro hundefined
    rw [hundefined] at hdef
    exact hdef _ rfl
  | alu op src => cases op <;> cases src <;> rfl
  | _ => rfl

theorem step_chain_eq (hok : ChainOk (m.map Mbuf.data)) (hne : (m.map Mbuf.data).flatten ≠ [])
    (hlen : (m.map Mbuf.data).flatten.length < 2 ^ 32)
    (hsize : arch.sizeT = 32 ∨ arch.sizeT = 64) (f : List Insn) (wirelen : BitVec 32) (s : State)
    (hdef : ∀ e, step arch f (.flat (m.map Mbuf.data).flatten) wirelen s ≠ .undefined e) :
    step arch f (.chain m) wirelen s
      = step arch f (.flat (m.map Mbuf.data).flatten) wirelen s := by
  unfold step at *
  cases hp : f[s.pc]? with
  | none => rfl
  | some p =>
    cases hd : decode p.code with
    | none => simp only [hd]
    | some body =>
      simp only [hp, hd] at hdef ⊢
      exact exec_chain_eq hok hne hlen hsize wirelen p s body hdef

/-- By induction over the steps: a value on the bytes is the value on the chain. -/
theorem run_chain_eq (hok : ChainOk (m.map Mbuf.data)) (hne : (m.map Mbuf.data).flatten ≠ [])
    (hlen : (m.map Mbuf.data).flatten.length < 2 ^ 32)
    (hsize : arch.sizeT = 32 ∨ arch.sizeT = 64) (f : List Insn) (wirelen v : BitVec 32)
    (n : Nat) : ∀ s, run arch f (.flat (m.map Mbuf.data).flatten) wirelen n s = .ret v →
      run arch f (.chain m) wirelen n s = .ret v := by
  induction n with
  | zero => exact nofun
  | succ n ih =>
    intro s hrun
    unfold run at hrun ⊢
    have hdef : ∀ e, step arch f (.flat (m.map Mbuf.data).flatten) wirelen s ≠ .undefined e := by
      intro e he
      rw [he] at hrun
      cases hrun
    rw [step_chain_eq hok hne hlen hsize f wirelen s hdef]
    cases hs : step arch f (.flat (m.map Mbuf.data).flatten) wirelen s with
    | next s1 =>
      rw [hs] at hrun
      exact ih s1 hrun
    | ret w =>
      rw [hs] at hrun
      exact hrun
    | undefined e => exact absurd hs (hdef e)

end

/-! ## Chains that are told apart -/

theorem extract_snoc_ne (bytes : List UInt8) : extract (bytes ++ [0]) ≠ extract (bytes ++ [1]) := by
  intro h
  have hbit := congrArg (fun v => v.getLsbD 0) h
  simp [extract, List.foldl_append] at hbit

/-- An mbuf behind one with data is not empty: else a half word shows what lies behind it. -/
theorem join_ne_nil {m m0 : List UInt8} {rest : List (List UInt8)}
    (hloads : ∀ junk sz k, k < (m :: m0 :: rest).flatten.length →
      loadChain sz ((m :: m0 :: rest).map (⟨·, junk⟩)) k
        = loadBytes sz.bytes (m :: m0 :: rest).flatten k) (hm : m ≠ []) : m0 ≠ [] := by
  rintro rfl
  have hpos : 0 < m.length := List.length_pos_iff.mpr hm
  have hin : m.length - 1 < (m :: [] :: rest).flatten.length := by
    rw [List.flatten_cons, List.length_append]
    omega
  have hhalf : ∀ junk : UInt8, loadChain .h ((m :: [] :: rest).map (⟨·, junk⟩)) (m.length - 1)
      = .val (extract (m.drop (m.length - 1) ++ [junk])) := by
    intro junk
    simp only [loadChain, bpfMXhalf, List.map_cons]
    rw [mindex_head _ (by simp only; omega)]
    simp only [List.headD_nil]
    rw [if_neg (by omega)]
  have heq := (hloads 0 .h _ hin).trans (hloads 1 .h _ hin).symm
  rw [hhalf, hhalf] at heq
  exact extract_snoc_ne _ (Load.val.inj heq)

theorem join_word {m m0 : List UInt8} {rest : List (List UInt8)}
    (hloads : ∀ junk sz k, k < (m :: m0 :: rest).flatten.length →
      loadChain sz ((m :: m0 :: rest).map (⟨·, junk⟩)) k
        = loadBytes sz.bytes (m :: m0 :: rest).flatten k) {j : Nat} (hj : 1 ≤ j) (hj3 : j ≤ 3)
    (hjm : j ≤ m.length) (hword : 4 ≤ j + (m0.length + rest.flatten.length)) :
    4 ≤ j + m0.length := by
  have htotal : (m :: m0 :: rest).flatten.length
      = m.length + (m0.length + rest.flatten.length) := by
    simp only [List.flatten_cons, List.length_append]
  have hload := hloads 0 .w (m.length - j) (by omega)
  simp only [loadChain, bpfMXword, List.map_cons] at hload
  rw [mindex_head _ (by simp only; omega)] at hload
  simp only at hload
  have hfits : m.length - j + Size.w.bytes ≤ (m :: m0 :: rest).flatten.length := by
    rw [show Size.w.bytes = 4 from rfl]
    omega
  rw [if_neg (by omega), loadBytes, if_pos hfits] at hload
  split_ifs at hload with hshort
  omega

theorem chainOk_of_loads : ∀ ms : List (List UInt8),
    (∀ junk sz k, k < ms.flatten.length →
      loadChain sz (ms.map (⟨·, junk⟩)) k = loadBytes sz.bytes ms.flatten k) → ChainOk ms := by
  intro ms
  induction ms with
  | nil => exact fun _ => trivial
  | cons m ms ih =>
    intro hloads
    cases ms with
    | nil => trivial
    | cons m0 rest =>
      refine ⟨fun hm => ⟨join_ne_nil hloads hm, ?_⟩, ih ?_⟩
      · intro j hj hj3 hjm hword
        exact join_word hloads hj hj3 hjm hword
      · intro junk sz k hk
        have hskip := hloads junk sz (m.length + k)
          (by rw [List.flatten_cons, List.length_append]; omega)
        rw [List.map_cons, loadChain_skip sz _ (by simp only; omega), List.flatten_cons,
          loadBytes_skip _ _ (by omega)] at hskip
        simpa only [Nat.add_sub_cancel_left] using hskip

def Size.code : Size → BitVec 16
  | .w => bpfW
  | .h => bpfH
  | .b => bpfB

/-- Load from `k`, then give what was loaded, or 1. -/
def probe (sz : Size) (k : BitVec 32) (a : Bool) : List Insn :=
  [⟨bpfLdx ||| bpfImm, 0#8, 0#8, k⟩, ⟨bpfLd ||| sz.code ||| bpfInd, 0#8, 0#8, 0#32⟩,
    ⟨bpfRet ||| if a then bpfA else bpfK, 0#8, 0#8, 1#32⟩]

theorem probe_valid (sz : Size) (k : BitVec 32) (a : Bool) : bpfValidate (2 ^ 31) (probe sz k a) = true := by
  cases sz <;> cases a <;>
    simp [probe, bpfValidate, bpfMaxinsns, validInsn, Size.code, bpfClass, bpfMode, bpfLd, bpfLdx, bpfImm,
      bpfInd, bpfAbs, bpfW, bpfH, bpfB, bpfRet, bpfA, bpfK, bpfSt, bpfStx, bpfAlu, bpfJmp]

theorem probe_ret (arch : Arch) (pkt : Packet) (wirelen : BitVec 32) (sz : Size) (k : BitVec 32)
    (a : Bool) :
    bpfFilter arch (some (probe sz k a)) pkt wirelen =
      match load arch pkt sz k with
      | .val v => .ret (if a then v else 1#32)
      | .reject => .ret 0#32
      | .undefined => .undefined .read := by
  have hind : decode (bpfLd ||| sz.code ||| bpfInd) = some (.ldInd sz) := by
    cases sz <;> rfl
  have himm : decode (bpfLdx ||| bpfImm) = some .ldxImm := rfl
  simp only [bpfFilter, probe, List.length_cons, List.length_nil, run, step, List.getElem?_cons_zero,
    himm, exec, List.getElem?_cons_succ, Nat.zero_add, hind, BitVec.add_zero]
  cases load arch pkt sz k with
  | val v =>
    cases a <;> rfl
  | reject => rfl
  | undefined => rfl

/-- A machine with 64 bit sizes, on which no load goes astray. -/
def lp64 : Arch := ⟨64, fun _ _ => 0#32, fun _ _ => 0#32⟩

theorem load_lp64_flat {p : List UInt8} (hne : p ≠ []) (hlen : p.length < 2 ^ 32) (sz : Size)
    (k : BitVec 32) : load lp64 (.flat p) sz k = loadBytes sz.bytes p k.toNat := by
  have hbuf : (Packet.flat p).buflen < 2 ^ 32 := hlen
  refine load_flat_eq hne sz k fun hundefined => ?_
  rw [load_eq_undefined, astray_of_size (.inr rfl) hbuf] at hundefined
  rcases hundefined with hflat | ⟨hsize, -⟩
  · exact hne (Packet.flat.inj hflat)
  · exact absurd hsize (by decide)

theorem load_lp64_chain (m : List Mbuf) (sz : Size) (k : BitVec 32) :
    load lp64 (.chain m) sz k = loadChain sz m k.toNat := by
  have hbytes : 0 < sz.bytes ∧ sz.bytes ≤ 4 := by cases sz <;> decide
  have hb : beyond lp64 sz k 0 = true := by
    rw [← Bool.not_eq_false, beyond_eq_false]
    simp only [lp64]
    split_ifs <;> omega
  unfold load
  simp only [Packet.buflen, hb]
  rfl

/-- The probes tell any two loads apart. -/
theorem loads_of_probes {p : List UInt8} (hne : p ≠ []) (hlen : p.length < 2 ^ 32) {m : List Mbuf}
    {sz : Size} {k : BitVec 32}
    (hprobe : ∀ a v, bpfFilter lp64 (some (probe sz k a)) (.flat p) 0#32 = .ret v →
      bpfFilter lp64 (some (probe sz k a)) (.chain m) 0#32 = .ret v) :
    loadChain sz m k.toNat = loadBytes sz.bytes p k.toNat := by
  simp only [probe_ret, load_lp64_flat hne hlen, load_lp64_chain] at hprobe
  have hundefined := loadChain_ne_undefined sz m k.toNat
  unfold loadBytes at hprobe ⊢
  split_ifs at hprobe ⊢ with hfits
  · cases hload : loadChain sz m k.toNat with
    | val w =>
      have hval := hprobe true _ rfl
      rw [hload] at hval
      exact congrArg Load.val (Result.ret.inj hval)
    | reject =>
      have hval := hprobe false _ rfl
      rw [hload] at hval
      have hno : 0#32 = 1#32 := Result.ret.inj hval
      exact absurd hno (by decide)
    | undefined => exact absurd hload hundefined
  · cases hload : loadChain sz m k.toNat with
    | val w =>
      have hval := hprobe false _ rfl
      rw [hload] at hval
      have hno : 1#32 = 0#32 := Result.ret.inj hval
      exact absurd hno (by decide)
    | reject => rfl
    | undefined => exact absurd hload hundefined

/-- **Chains and flat buffers.** The bytes of a packet, cut in this way, give every filter
the value it has on the bytes in one piece, exactly if the cut is a `ChainOk` one. -/
theorem bpfFilter_chain_iff (ms : List (List UInt8)) (hne : ms.flatten ≠ [])
    (hlen : ms.flatten.length < 2 ^ 32) :
    (∀ (bpfMaxbufsize : Nat) (arch : Arch) (f : List Insn) (m : List Mbuf) (wirelen v : BitVec 32),
      bpfMaxbufsize ≤ 2 ^ 31 → bpfValidate bpfMaxbufsize f = true →
      (arch.sizeT = 32 ∨ arch.sizeT = 64) → m.map Mbuf.data = ms →
      bpfFilter arch (some f) (.flat ms.flatten) wirelen = .ret v →
      bpfFilter arch (some f) (.chain m) wirelen = .ret v) ↔ ChainOk ms := by
  constructor
  · intro hall
    refine chainOk_of_loads ms fun junk sz k hk => ?_
    have hdata : (ms.map fun d => Mbuf.mk d junk).map Mbuf.data = ms := by
      simp [Function.comp_def]
    have hload := loads_of_probes hne hlen fun a v =>
      hall (2 ^ 31) lp64 (probe sz (BitVec.ofNat 32 k) a) (ms.map (⟨·, junk⟩)) 0#32 v (Nat.le_refl _)
        (probe_valid _ _ _) (.inr rfl) hdata
    rwa [BitVec.toNat_ofNat, Nat.mod_eq_of_lt (by omega)] at hload
  · rintro hok bpfMaxbufsize arch f m wirelen v - - hsize rfl hflat
    exact run_chain_eq hok hne hlen hsize f wirelen v _ {} hflat

/-- Six bytes in mbufs of one, three and two. -/
theorem bpfFilter_chain_short :
    ChainOk [[1], [2, 3, 4], [5, 6]] ∧
    ∀ (f : List Insn) (wirelen v : BitVec 32), bpfValidate 0x200000 f = true →
      bpfFilter lp64 (some f) (.flat [1, 2, 3, 4, 5, 6]) wirelen = .ret v →
      bpfFilter lp64 (some f) (.chain [⟨[1], 0⟩, ⟨[2, 3, 4], 0⟩, ⟨[5, 6], 0⟩]) wirelen = .ret v := by
  have hok : ChainOk [[1], [2, 3, 4], [5, 6]] := by
    refine ⟨fun _ => ⟨by decide, ?_⟩, fun _ => ⟨by decide, ?_⟩, trivial⟩ <;>
      · intro j
        simp only [List.length_cons, List.length_nil, List.flatten_cons, List.flatten_nil,
          List.length_append]
        omega
  refine ⟨hok, fun f wirelen v hv hflat => ?_⟩
  exact (bpfFilter_chain_iff [[1], [2, 3, 4], [5, 6]] (by decide) (by decide)).mpr hok 0x200000 lp64 f
    _ wirelen v (by decide) hv (.inr rfl) rfl hflat

/-- A word that lies in three mbufs is found in one piece only. -/
theorem bpfFilter_chain_straddle :
    bpfValidate 0x200000 (probe .w 0#32 false) = true ∧
      bpfFilter lp64 (some (probe .w 0#32 false)) (.flat [1, 2, 3, 4]) 4#32 = .ret 1#32 ∧
      bpfFilter lp64 (some (probe .w 0#32 false)) (.chain [⟨[1], 0⟩, ⟨[2], 0⟩, ⟨[3, 4], 0⟩]) 4#32
        = .ret 0#32 := by
  decide +kernel

end Obsd.Bpf
