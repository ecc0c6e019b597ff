import Obsd.Bpf

/-!
# Validated filters

What `bpf_validate` lets through ends, stays inside the program and the
scratch memory and does not divide by zero, whatever the packet. A step
can fail in one way only: a load may go astray (`Strays`). That takes an
empty flat buffer, which is taken for an mbuf chain, or a `size_t` of 32
bits and an indirect load whose last byte lies beyond the address space.
-/

namespace Obsd.Bpf

/-! ## What the validator checks -/

/-- What an accepted instruction at `i` of `len` is known to satisfy, by the case of the
switch that runs it. -/
def Checked (bpfMaxbufsize len i : Nat) (p : Insn) : Body → Prop
  | .retK | .retA => True
  | .ldAbs _ | .ldxMsh => p.k.toNat < bpfMaxbufsize ∧ bpfClass p.code ≠ bpfRet
  | .ldMem | .ldxMem | .st | .stx => p.k.toNat < bpfMemwords ∧ bpfClass p.code ≠ bpfRet
  | .ja => i + 1 + p.k.toNat < len
  | .jmp _ _ => i + 1 + p.jt.toNat < len ∧ i + 1 + p.jf.toNat < len
  | .alu .div .k => p.k ≠ 0#32 ∧ bpfClass p.code ≠ bpfRet
  | _ => bpfClass p.code ≠ bpfRet

theorem decode_mem {code : BitVec 16} {body : Body} (h : decode code = some body) :
    (code, body) ∈ cases := by
  obtain ⟨⟨c, d⟩, hfind, rfl⟩ := Option.map_eq_some_iff.mp h
  have hc : c = code := by simpa using List.find?_some hfind
  exact hc ▸ List.mem_of_find?_eq_some hfind

/-- The class of the labels of a case, with the mode or the operation where the validator
looks at it. -/
def Body.Labels (code : BitVec 16) : Body → Prop
  | .retK | .retA => bpfClass code = bpfRet
  | .ldAbs _ => bpfClass code = bpfLd ∧ bpfMode code = bpfAbs
  | .ldxMsh => bpfClass code = bpfLdx ∧ bpfMode code = bpfMsh
  | .ldMem => bpfClass code = bpfLd ∧ bpfMode code = bpfMem
  | .ldxMem => bpfClass code = bpfLdx ∧ bpfMode code = bpfMem
  | .st => bpfClass code = bpfSt
  | .stx => bpfClass code = bpfStx
  | .ja => bpfClass code = bpfJmp ∧ bpfOp code = bpfJa
  | .jmp _ _ => bpfClass code = bpfJmp ∧ bpfOp code ≠ bpfJa
  | .alu .div .k => bpfClass code = bpfAlu ∧ bpfOp code = bpfDiv ∧ bpfSrc code = bpfK
  | _ => bpfClass code ≠ bpfRet

theorem cases_labels : ∀ c ∈ cases, c.2.Labels c.1 := by
  simp only [cases, List.forall_mem_cons, List.not_mem_nil, false_imp_iff, implies_true, and_true,
    Body.Labels]
  and_intros <;> decide

theorem checked_of_valid {bpfMaxbufsize len i : Nat} {p : Insn} {body : Body}
    (hlen : len ≤ bpfMaxinsns) (hi : i < len) (hv : validInsn bpfMaxbufsize len i p = true)
    (hd : decode p.code = some body) : Checked bpfMaxbufsize len i p body := by
  have hlab : body.Labels p.code := cases_labels _ (decode_mem hd)
  unfold validInsn at hv
  cases body with
  | retK => trivial
  | retA => trivial
  | ldAbs sz =>
    obtain ⟨hcls, hmode⟩ := hlab
    simp [hcls, hmode, bpfAbs, bpfImm] at hv
    exact ⟨hv, by rw [hcls]; decide⟩
  | ldxMsh =>
    obtain ⟨hcls, hmode⟩ := hlab
    simp [hcls, hmode, bpfMsh, bpfImm] at hv
    exact ⟨hv, by rw [hcls]; decide⟩
  | ldMem =>
    obtain ⟨hcls, hmode⟩ := hlab
    simp [hcls, hmode, bpfMem, bpfImm, bpfAbs, bpfInd, bpfMsh] at hv
    exact ⟨hv, by rw [hcls]; decide⟩
  | ldxMem =>
    obtain ⟨hcls, hmode⟩ := hlab
    simp [hcls, hmode, bpfMem, bpfImm, bpfAbs, bpfInd, bpfMsh] at hv
    exact ⟨hv, by rw [hcls]; decide⟩
  | st =>
    have hcls : bpfClass p.code = bpfSt := hlab
    simp [hcls, bpfSt, bpfLd, bpfLdx] at hv
    exact ⟨hv, by rw [hcls]; decide⟩
  | stx =>
    have hcls : bpfClass p.code = bpfStx := hlab
    simp [hcls, bpfStx, bpfSt, bpfLd, bpfLdx] at hv
    exact ⟨hv, by rw [hcls]; decide⟩
  | ja =>
    obtain ⟨hcls, hop⟩ := hlab
    simp [hcls, hop, bpfJmp, bpfAlu, bpfStx, bpfSt, bpfLd, bpfLdx] at hv
    obtain ⟨hfrom, hto⟩ := hv
    -- the sum did not wrap, as `from` is small
    show i + 1 + p.k.toNat < len
    omega
  | jmp op src =>
    obtain ⟨hcls, hop⟩ := hlab
    simp [hcls, hop, bpfJmp, bpfAlu, bpfStx, bpfSt, bpfLd, bpfLdx] at hv
    exact hv.2
  | alu op src =>
    match op, src, hlab with
    | .div, .k, hlab =>
      obtain ⟨hcls, hop, hsrc⟩ := hlab
      refine ⟨?_, by rw [hcls]; decide⟩
      simp [hcls, hop, hsrc, bpfDiv, bpfAdd, bpfSub, bpfMul, bpfOr, bpfAnd, bpfLsh, bpfRsh, bpfNeg,
        bpfAlu, bpfStx, bpfSt, bpfLd, bpfLdx] at hv
      exact hv
    | .div, .x, hlab => exact hlab
    | .add, _, hlab | .sub, _, hlab | .mul, _, hlab | .and, _, hlab | .or, _, hlab | .lsh, _, hlab
    | .rsh, _, hlab => exact hlab
  | ldInd _ => exact hlab
  | ldLen => exact hlab
  | ldxLen => exact hlab
  | ldImm => exact hlab
  | ldxImm => exact hlab
  | neg => exact hlab
  | tax => exact hlab
  | txa => exact hlab

theorem insn_of_validate {bpfMaxbufsize : Nat} {f : List Insn} {i : Nat} {p : Insn} {body : Body}
    (hv : bpfValidate bpfMaxbufsize f = true) (hp : f[i]? = some p)
    (hd : decode p.code = some body) : Checked bpfMaxbufsize f.length i p body := by
  unfold bpfValidate at hv
  split_ifs at hv with hlen
  rw [Bool.and_eq_true, List.all_eq_true] at hv
  have hi : i < f.length := (List.getElem?_eq_some_iff.mp hp).1
  have hmem : (p, i) ∈ f.zipIdx := List.mem_zipIdx_iff_getElem?.mpr hp
  exact checked_of_valid (by omega) hi (hv.1 (p, i) hmem) hd

/-- The last instruction is a return, so there is one behind any other. -/
theorem lt_of_not_ret {bpfMaxbufsize : Nat} {f : List Insn} {i : Nat} {p : Insn}
    (hv : bpfValidate bpfMaxbufsize f = true) (hp : f[i]? = some p)
    (hret : bpfClass p.code ≠ bpfRet) : i + 1 < f.length := by
  unfold bpfValidate at hv
  have hi : i < f.length := (List.getElem?_eq_some_iff.mp hp).1
  rcases Nat.lt_or_ge (i + 1) f.length with hlt | hge
  · exact hlt
  · have hlast : f.getLast? = some p := by
      rw [List.getLast?_eq_getElem?, ← hp]
      congr 1
      omega
    simp [hlast, hret] at hv

/-! ## Loads -/

/-- The check of a load passes and the bytes are not there, or there is no packet at all. -/
def Astray (arch : Arch) (pkt : Packet) (sz : Size) (k : BitVec 32) : Prop :=
  pkt = .flat [] ∨ sz ≠ .b ∧ pkt.buflen < k.toNat + sz.bytes
    ∧ (k.toNat + sz.bytes) % 2 ^ arch.sizeT ≤ pkt.buflen

theorem beyond_eq_false {arch : Arch} {sz : Size} {k : BitVec 32} {buflen : Nat} :
    beyond arch sz k buflen = false ↔
      if sz = .b then k.toNat + sz.bytes ≤ buflen
      else (k.toNat + sz.bytes) % 2 ^ arch.sizeT ≤ buflen := by
  cases sz <;> simp [beyond, Size.bytes, Nat.succ_le_iff]

theorem loadChain_ne_undefined (sz : Size) (m : List Mbuf) (k : Nat) : loadChain sz m k ≠ .undefined := by
  cases sz
  case w =>
    unfold loadChain bpfMXword
    grind
  case h =>
    unfold loadChain bpfMXhalf
    grind
  case b =>
    unfold loadChain bpfMXbyte
    grind

theorem load_eq_undefined {arch : Arch} {pkt : Packet} {sz : Size} {k : BitVec 32} :
    load arch pkt sz k = .undefined ↔ Astray arch pkt sz k := by
  have hbytes : 0 < sz.bytes := by cases sz <;> decide
  have hlow : beyond arch sz k pkt.buflen = false ↔ _ := beyond_eq_false
  unfold load Astray
  cases hb : beyond arch sz k pkt.buflen with
  | true =>
    rw [hb] at hlow
    cases pkt with
    | flat p =>
      rcases Nat.eq_zero_or_pos p.length with hp | hp
      · simp [Packet.buflen, List.length_eq_zero_iff.mp hp]
      · simp only [Packet.buflen] at hlow ⊢
        grind
    | chain m =>
      have hnu := loadChain_ne_undefined sz m k.toNat
      grind
  | false =>
    rw [hb] at hlow
    cases pkt with
    | flat p =>
      simp only [Packet.buflen, readFlat] at hlow ⊢
      grind
    | chain m =>
      simp only [Packet.buflen] at hlow ⊢
      grind

section
variable {arch : Arch} {pkt : Packet} {k : BitVec 32}

/-- The index of a load by a constant is bounded by the validator. -/
theorem astray_of_const (hsize : arch.sizeT = 32 ∨ arch.sizeT = 64) (sz : Size)
    (hk : k.toNat < 2 ^ 31) : Astray arch pkt sz k ↔ pkt = .flat [] := by
  have hbytes : sz.bytes ≤ 4 := by cases sz <;> decide
  refine ⟨?_, Or.inl⟩
  rintro (hflat | ⟨-, hlt, hmod⟩)
  · exact hflat
  · rcases hsize with hsize | hsize <;> rw [hsize, Nat.mod_eq_of_lt (by omega)] at hmod <;> omega

theorem astray_of_size (hsize : arch.sizeT = 32 ∨ arch.sizeT = 64) (hlen : pkt.buflen < 2 ^ 32)
    (sz : Size) :
    Astray arch pkt sz k ↔ pkt = .flat [] ∨ arch.sizeT = 32 ∧ sz ≠ .b
      ∧ 2 ^ 32 ≤ k.toNat + sz.bytes ∧ k.toNat + sz.bytes - 2 ^ 32 ≤ pkt.buflen := by
  have hbytes : sz.bytes ≤ 4 := by cases sz <;> decide
  unfold Astray
  rcases hsize with hsize | hsize
  · rw [hsize]
    refine or_congr_right ?_
    constructor
    · rintro ⟨hsz, hlt, hmod⟩
      refine ⟨rfl, hsz, ?_⟩
      omega
    · rintro ⟨-, hsz, hge, hle⟩
      refine ⟨hsz, ?_⟩
      omega
  · rw [hsize, Nat.mod_eq_of_lt (by omega)]
    refine or_congr_right ?_
    constructor
    · rintro ⟨-, hlt, hle⟩
      omega
    · rintro ⟨hno, -⟩
      omega

end

/-! ## Steps -/

/-- The case is a load that goes astray. -/
def Body.Strays (arch : Arch) (pkt : Packet) (s : State) (p : Insn) : Body → Prop
  | .ldAbs _ | .ldxMsh => pkt = .flat []
  | .ldInd sz => pkt = .flat [] ∨ arch.sizeT = 32 ∧ sz ≠ .b
      ∧ 2 ^ 32 ≤ (s.x + p.k).toNat + sz.bytes
      ∧ (s.x + p.k).toNat + sz.bytes - 2 ^ 32 ≤ pkt.buflen
  | _ => False

/-- So is the instruction to run next. -/
def Strays (arch : Arch) (f : List Insn) (pkt : Packet) (s : State) : Prop :=
  ∃ p body, f[s.pc]? = some p ∧ decode p.code = some body ∧ body.Strays arch pkt s p

theorem strays_iff (arch : Arch) (pkt : Packet) {f : List Insn} {s : State} {p : Insn} {body : Body}
    (hp : f[s.pc]? = some p) (hd : decode p.code = some body) :
    Strays arch f pkt s ↔ body.Strays arch pkt s p := by
  constructor
  · rintro ⟨p', body', hp', hd', h⟩
    obtain rfl : p = p' := Option.some.inj (hp.symm.trans hp')
    obtain rfl : body = body' := Option.some.inj (hd.symm.trans hd')
    exact h
  · intro h
    exact ⟨p, body, hp, hd, h⟩

/-- What a step from `s` may come to: it ends the filter, it goes on further down the
program, or it is a load astray. -/
def StepOk (arch : Arch) (f : List Insn) (pkt : Packet) (s : State) : Result → Prop
  | .ret _ => ¬Strays arch f pkt s
  | .next s' => s.pc < s'.pc ∧ s'.pc < f.length ∧ ¬Strays arch f pkt s
  | .undefined e => e = .read ∧ Strays arch f pkt s

theorem stepOk_toA {arch : Arch} {f : List Insn} {pkt : Packet} {s : State} {l : Load}
    (hnext : s.pc + 1 < f.length) (hl : l = .undefined ↔ Strays arch f pkt s) :
    StepOk arch f pkt s (l.toA s) := by
  cases l with
  | val v => exact ⟨Nat.lt_succ_self _, hnext, fun h => nomatch hl.mpr h⟩
  | reject => exact fun h => nomatch hl.mpr h
  | undefined => exact ⟨rfl, hl.mp rfl⟩

theorem stepOk_toMsh {arch : Arch} {f : List Insn} {pkt : Packet} {s : State} {l : Load}
    (hnext : s.pc + 1 < f.length) (hl : l = .undefined ↔ Strays arch f pkt s) :
    StepOk arch f pkt s (l.toMsh s) := by
  cases l with
  | val v => exact ⟨Nat.lt_succ_self _, hnext, fun h => nomatch hl.mpr h⟩
  | reject => exact fun h => nomatch hl.mpr h
  | undefined => exact ⟨rfl, hl.mp rfl⟩

section
variable {bpfMaxbufsize : Nat} {arch : Arch} {f : List Insn} {pkt : Packet}

/-- Every instruction of a validated program. -/
theorem exec_ok (hv : bpfValidate bpfMaxbufsize f = true) (hmax : bpfMaxbufsize ≤ 2 ^ 31)
    (hsize : arch.sizeT = 32 ∨ arch.sizeT = 64) (hlen : pkt.buflen < 2 ^ 32) (wirelen : BitVec 32)
    {s : State} {p : Insn} {body : Body} (hp : f[s.pc]? = some p)
    (hd : decode p.code = some body) :
    StepOk arch f pkt s (exec arch pkt wirelen p s body) := by
  have hchk := insn_of_validate hv hp hd
  have hst := strays_iff arch pkt hp hd
  have hnext : bpfClass p.code ≠ bpfRet → s.pc + 1 < f.length := lt_of_not_ret hv hp
  cases body with
  | retK => exact hst.mp
  | retA => exact hst.mp
  | ldAbs sz =>
    refine stepOk_toA (hnext hchk.2) ?_
    rw [load_eq_undefined, astray_of_const hsize sz (Nat.lt_of_lt_of_le hchk.1 hmax)]
    exact hst.symm
  | ldInd sz =>
    refine stepOk_toA (hnext hchk) ?_
    rw [load_eq_undefined, astray_of_size hsize hlen]
    exact hst.symm
  | ldxMsh =>
    refine stepOk_toMsh (hnext hchk.2) ?_
    rw [load_eq_undefined, astray_of_const hsize .b (Nat.lt_of_lt_of_le hchk.1 hmax)]
    exact hst.symm
  | ldMem =>
    have hk : p.k.toNat < 16 := hchk.1
    simp only [exec, Vector.getElem?_eq_getElem hk]
    exact ⟨Nat.lt_succ_self _, hnext hchk.2, hst.mp⟩
  | ldxMem =>
    have hk : p.k.toNat < 16 := hchk.1
    simp only [exec, Vector.getElem?_eq_getElem hk]
    exact ⟨Nat.lt_succ_self _, hnext hchk.2, hst.mp⟩
  | st =>
    have hk : p.k.toNat < 16 := hchk.1
    simp only [exec, dif_pos hk]
    exact ⟨Nat.lt_succ_self _, hnext hchk.2, hst.mp⟩
  | stx =>
    have hk : p.k.toNat < 16 := hchk.1
    simp only [exec, dif_pos hk]
    exact ⟨Nat.lt_succ_self _, hnext hchk.2, hst.mp⟩
  | ja =>
    have hto : s.pc + 1 + p.k.toNat < f.length := hchk
    exact ⟨by simp only; omega, hto, hst.mp⟩
  | jmp op src =>
    obtain ⟨hjt, hjf⟩ := hchk
    simp only [exec]
    split
    · exact ⟨by simp only; omega, hjt, hst.mp⟩
    · exact ⟨by simp only; omega, hjf, hst.mp⟩
  | alu op src =>
    cases op with
    | div =>
      cases src with
      | x =>
        simp only [exec]
        split
        · exact hst.mp
        · exact ⟨Nat.lt_succ_self _, hnext hchk, hst.mp⟩
      | k =>
        obtain ⟨hk, hcls⟩ := hchk
        simp only [exec, if_neg hk]
        exact ⟨Nat.lt_succ_self _, hnext hcls, hst.mp⟩
    | add => exact ⟨Nat.lt_succ_self _, hnext hchk, hst.mp⟩
    | sub => exact ⟨Nat.lt_succ_self _, hnext hchk, hst.mp⟩
    | mul => exact ⟨Nat.lt_succ_self _, hnext hchk, hst.mp⟩
    | and => exact ⟨Nat.lt_succ_self _, hnext hchk, hst.mp⟩
    | or => exact ⟨Nat.lt_succ_self _, hnext hchk, hst.mp⟩
    | lsh => exact ⟨Nat.lt_succ_self _, hnext hchk, hst.mp⟩
    | rsh => exact ⟨Nat.lt_succ_self _, hnext hchk, hst.mp⟩
  | ldLen => exact ⟨Nat.lt_succ_self _, hnext hchk, hst.mp⟩
  | ldxLen => exact ⟨Nat.lt_succ_self _, hnext hchk, hst.mp⟩
  | ldImm => exact ⟨Nat.lt_succ_self _, hnext hchk, hst.mp⟩
  | ldxImm => exact ⟨Nat.lt_succ_self _, hnext hchk, hst.mp⟩
  | neg => exact ⟨Nat.lt_succ_self _, hnext hchk, hst.mp⟩
  | tax => exact ⟨Nat.lt_succ_self _, hnext hchk, hst.mp⟩
  | txa => exact ⟨Nat.lt_succ_self _, hnext hchk, hst.mp⟩

theorem step_ok (hv : bpfValidate bpfMaxbufsize f = true) (hmax : bpfMaxbufsize ≤ 2 ^ 31)
    (hsize : arch.sizeT = 32 ∨ arch.sizeT = 64) (hlen : pkt.buflen < 2 ^ 32) (wirelen : BitVec 32)
    {s : State} (hpc : s.pc < f.length) : StepOk arch f pkt s (step arch f pkt wirelen s) := by
  have hp : f[s.pc]? = some f[s.pc] := List.getElem?_eq_getElem hpc
  unfold step
  rw [hp]
  cases hd : decode f[s.pc].code with
  | none =>
    simp only [hd]
    rintro ⟨p, body, hp', hd', -⟩
    obtain rfl : f[s.pc] = p := Option.some.inj (hp.symm.trans hp')
    rw [hd] at hd'
    cases hd'
  | some body =>
    simp only [hd]
    exact exec_ok hv hmax hsize hlen wirelen hp hd

/-! ## Runs -/

/-- The program counter grows with every step, so a run of `n` steps that goes on has come
at least `n` instructions far. -/
theorem run_ok (hv : bpfValidate bpfMaxbufsize f = true) (hmax : bpfMaxbufsize ≤ 2 ^ 31)
    (hsize : arch.sizeT = 32 ∨ arch.sizeT = 64) (hlen : pkt.buflen < 2 ^ 32) (wirelen : BitVec 32)
    (n : Nat) : ∀ s : State, s.pc < f.length →
      match run arch f pkt wirelen n s with
      | .ret _ => True
      | .next s' => s.pc + n ≤ s'.pc ∧ s'.pc < f.length
      | .undefined e => e = .read ∧ ∃ m s', run arch f pkt wirelen m s = .next s' ∧ Strays arch f pkt s' := by
  induction n with
  | zero =>
    intro s hpc
    exact ⟨le_rfl, hpc⟩
  | succ n ih =>
    intro s hpc
    have hstep := step_ok hv hmax hsize hlen wirelen hpc
    unfold run
    cases hs : step arch f pkt wirelen s with
    | ret v => trivial
    | undefined e =>
      rw [hs] at hstep
      exact ⟨hstep.1, 0, s, rfl, hstep.2⟩
    | next s1 =>
      rw [hs] at hstep
      obtain ⟨hlt, hin, -⟩ := hstep
      have hrest := ih s1 hin
      simp only
      revert hrest
      cases run arch f pkt wirelen n s1 with
      | ret v => exact id
      | next s' =>
        rintro ⟨hle, hin'⟩
        exact ⟨by omega, hin'⟩
      | undefined e =>
        rintro ⟨he, m, s', hrun, hst⟩
        refine ⟨he, m + 1, s', ?_, hst⟩
        simp only [hs, hrun]

/-- A load that goes astray is the end of a run. -/
theorem run_strays (hv : bpfValidate bpfMaxbufsize f = true) (hmax : bpfMaxbufsize ≤ 2 ^ 31)
    (hsize : arch.sizeT = 32 ∨ arch.sizeT = 64) (hlen : pkt.buflen < 2 ^ 32) (wirelen : BitVec 32)
    (m : Nat) : ∀ (s s' : State), s.pc < f.length → run arch f pkt wirelen m s = .next s' →
      Strays arch f pkt s' → ∀ n v, run arch f pkt wirelen n s ≠ .ret v := by
  induction m with
  | zero =>
    intro s s' hpc hrun hst n v
    obtain rfl : s = s' := Result.next.inj hrun
    have hstep := step_ok hv hmax hsize hlen wirelen hpc
    cases n with
    | zero => exact nofun
    | succ n =>
      unfold run
      cases hs : step arch f pkt wirelen s with
      | ret w =>
        rw [hs] at hstep
        exact absurd hst hstep
      | next s1 =>
        rw [hs] at hstep
        exact absurd hst hstep.2.2
      | undefined e => exact nofun
  | succ m ih =>
    intro s s' hpc hrun hst n v
    have hstep := step_ok hv hmax hsize hlen wirelen hpc
    unfold run at hrun
    cases n with
    | zero => exact nofun
    | succ n =>
      unfold run
      cases hs : step arch f pkt wirelen s with
      | ret w => rw [hs] at hrun; cases hrun
      | undefined e => exact nofun
      | next s1 =>
        rw [hs] at hrun hstep
        exact ih s1 s' hstep.2.1 hrun hst n v

/-- **A validated filter is safe.** Every run stays inside the program and can only fail by
reading the packet; the filter gives a value exactly if no load it comes to goes astray. -/
theorem bpfFilter_safe (bpfMaxbufsize : Nat) (arch : Arch) (f : List Insn) (pkt : Packet)
    (wirelen : BitVec 32) (hv : bpfValidate bpfMaxbufsize f = true)
    (hmax : bpfMaxbufsize ≤ 2 ^ 31) (hsize : arch.sizeT = 32 ∨ arch.sizeT = 64)
    (hlen : pkt.buflen < 2 ^ 32) :
    (∀ n, match run arch f pkt wirelen n {} with
      | .ret _ => True
      | .next s => s.pc < f.length
      | .undefined e => e = .read) ∧
    ((∃ v, bpfFilter arch (some f) pkt wirelen = .ret v) ↔
      ∀ n s, run arch f pkt wirelen n {} = .next s → ¬Strays arch f pkt s) := by
  have hpos : (({} : State).pc) < f.length := by
    unfold bpfValidate at hv
    split_ifs at hv with hlen
    simp only
    omega
  refine ⟨fun n => ?_, ?_, fun hsafe => ?_⟩
  · have hrun := run_ok hv hmax hsize hlen wirelen n {} hpos
    revert hrun
    cases run arch f pkt wirelen n {} with
    | ret v => exact id
    | next s => exact And.right
    | undefined e => exact And.left
  · rintro ⟨v, hret⟩ n s hrun hst
    exact run_strays hv hmax hsize hlen wirelen n {} s hpos hrun hst f.length v hret
  · have hrun := run_ok hv hmax hsize hlen wirelen f.length {} hpos
    show ∃ v, run arch f pkt wirelen f.length {} = .ret v
    revert hrun
    cases run arch f pkt wirelen f.length {} with
    | ret v => exact fun _ => ⟨v, rfl⟩
    | next s =>
      rintro ⟨hle, hin⟩
      omega
    | undefined e =>
      rintro ⟨-, m, s, hrun, hst⟩
      exact absurd hst (hsafe m s hrun)

end

/-- An indirect load of a word, its index just below 2³². -/
def wrapping : List Insn :=
  [⟨bpfLdx ||| bpfImm, 0#8, 0#8, 0xfffffffc#32⟩, ⟨bpfLd ||| bpfW ||| bpfInd, 0#8, 0#8, 0#32⟩,
    ⟨bpfRet ||| bpfA, 0#8, 0#8, 0#32⟩]

/-- With 64 bits the same load is refused. -/
theorem bpfFilter_safe_wide :
    ∃ v, bpfFilter ⟨64, fun _ _ => 0, fun _ _ => 0⟩ (some wrapping) (.flat [1, 2, 3, 4]) 4 = .ret v := by
  refine (bpfFilter_safe 0x200000 ⟨64, fun _ _ => 0, fun _ _ => 0⟩ wrapping (.flat [1, 2, 3, 4]) 4
    (by decide +kernel) (by decide) (.inr rfl) (by decide)).2.mpr ?_
  rintro n s - ⟨p, body, -, -, hst⟩
  cases body with
  | ldAbs sz => exact nomatch Packet.flat.inj hst
  | ldxMsh => exact nomatch Packet.flat.inj hst
  | ldInd sz =>
    rcases hst with hflat | ⟨hsize, -⟩
    · exact absurd hflat (by decide)
    · exact absurd hsize (by decide)
  | _ => exact hst

/-- With 32 bits the validated program reads outside the four bytes of the packet. -/
theorem bpfFilter_wraps :
    bpfValidate 0x200000 wrapping = true ∧
      bpfFilter ⟨32, fun _ _ => 0, fun _ _ => 0⟩ (some wrapping) (.flat [1, 2, 3, 4]) 4 = .undefined .read := by
  decide +kernel

end Obsd.Bpf
