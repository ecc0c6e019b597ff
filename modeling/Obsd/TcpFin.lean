import Obsd.TcpStages

/-!
# The FIN of the peer

A FIN stands at a number of its own, behind the last byte of the segment
that carries it. `tcp_input` acts on a FIN it finds in `th_flags`, either
directly behind the text of the segment or when the reassembly queue
reaches it; this module shows at which numbers that happens. Cutting a
segment at its head leaves the number of its FIN where it was. Cutting it
at its tail does not, and there the FIN is cleared in `tiflags` only.
-/

namespace Obsd.Tcp

/-! ## Queued FINs -/

/-- Every queued FIN stands at a number of `F`. -/
def QueueFin (F : Set Seq) (q : List Tcpqent) : Prop :=
  ∀ e ∈ q, e.thFlags.fin = true → e.thSeq + BitVec.ofNat 32 e.thReseqlen ∈ F

section Fin

variable {F : Set Seq}

theorem QueueFin.sub {q q' : List Tcpqent} (h : QueueFin F q) (hs : ∀ e ∈ q', e ∈ q) :
    QueueFin F q' := fun e he => h e (hs e he)

/-- Cutting the front off an entry leaves its end where it is. -/
theorem trim_end (x : Seq) {i : Int} {len : Nat} (h0 : 0 ≤ i) (hle : i ≤ len) :
    x + BitVec.ofInt 32 i + BitVec.ofNat 32 (len - i.toNat) = x + BitVec.ofNat 32 len := by
  obtain ⟨n, rfl⟩ := Int.eq_ofNat_of_zero_le h0
  obtain ⟨m, rfl⟩ : ∃ m, len = n + m := ⟨len - n, by omega⟩
  rw [BitVec.ofInt_natCast, BitVec.add_assoc, ← BitVec.ofNat_add]
  simp

theorem segqFind_mem (thSeq : Seq) :
    ∀ (before after : List Tcpqent) (e : Tcpqent),
      (e ∈ (segqFind thSeq before after).1 ∨ e ∈ (segqFind thSeq before after).2) →
      e ∈ before ∨ e ∈ after
  | before, [], e, h => by simpa [segqFind] using h
  | before, q :: after, e, h => by
      rw [segqFind] at h
      split at h
      · exact h
      · have := segqFind_mem thSeq (q :: before) after e h
        simp only [List.mem_cons] at this ⊢
        tauto

theorem segqTrim_fin (segEnd : Seq) :
    ∀ {q : List Tcpqent}, QueueFin F q → QueueFin F (segqTrim segEnd q)
  | [], h => h
  | e :: q, h => by
      have hrest : QueueFin F q := h.sub fun x hx => List.mem_cons_of_mem _ hx
      rw [segqTrim]
      split_ifs with h1 h2
      · exact h
      · intro x hx hfin
        rcases List.mem_cons.mp hx with rfl | hx
        · rw [trim_end _ (by omega) (by omega)]
          exact h e (by simp) hfin
        · exact hrest x hx hfin
      · exact segqTrim_fin segEnd hrest

theorem flushLoop_fin :
    ∀ {q : List Tcpqent} (so : Socket) (rcvNxt : Seq) (flags : Bool), QueueFin F q →
      (flags = true → rcvNxt ∈ F) →
      QueueFin F (flushLoop so rcvNxt flags q).2.2.2
        ∧ ((flushLoop so rcvNxt flags q).1 = true → (flushLoop so rcvNxt flags q).2.1 ∈ F)
  | [], so, rcvNxt, flags, h, hf => ⟨h, hf⟩
  | e :: q, so, rcvNxt, flags, h, hf => by
      rw [flushLoop]
      split
      · rename_i heq
        exact flushLoop_fin _ _ _ (h.sub fun x hx => List.mem_cons_of_mem _ hx)
          fun hfin => heq ▸ h e (by simp) hfin
      · exact ⟨h, hf⟩

theorem tcpFlushQueue_fin {tp : Tcpcb} (so : Socket) (h : QueueFin F tp.tSegq) :
    QueueFin F (tcpFlushQueue tp so).2.1.tSegq
      ∧ ((tcpFlushQueue tp so).1 = true → (tcpFlushQueue tp so).2.1.rcvNxt ∈ F) := by
  unfold tcpFlushQueue
  split
  · exact ⟨h, by simp⟩
  · split
    · exact ⟨h, by simp⟩
    · rename_i q nq hq
      rw [hq] at h
      have hflush := flushLoop_fin so tp.rcvNxt false h (by simp)
      split_ifs
      · exact ⟨hq ▸ h, by simp⟩
      · exact ⟨hq ▸ h, by simp⟩
      · exact hflush

theorem reassPlace_fin {tp : Tcpcb} (so : Socket) {flags : ThFlags} {before after : List Tcpqent}
    {thSeq : Seq} (m : List UInt8) {tlen : Nat} (hb : QueueFin F before) (ha : QueueFin F after)
    (hlen : tlen < 2 ^ 16) (hfin : flags.fin = true → thSeq + BitVec.ofNat 32 tlen ∈ F) :
    QueueFin F (reassPlace tp so flags before after thSeq m tlen).2.1.tSegq
      ∧ ((reassPlace tp so flags before after thSeq m tlen).1 = true →
          (reassPlace tp so flags before after thSeq m tlen).2.1.rcvNxt ∈ F) := by
  have hq : QueueFin F (before.reverse ++ (⟨thSeq, tlen % 2 ^ 16, flags, m⟩ : Tcpqent) ::
      segqTrim (thSeq + BitVec.ofNat 32 tlen) after) := by
    intro e he hf
    rw [List.mem_append, List.mem_reverse, List.mem_cons] at he
    rcases he with he | rfl | he
    · exact hb e he hf
    · rw [Nat.mod_eq_of_lt hlen]
      exact hfin hf
    · exact segqTrim_fin _ ha e he hf
  unfold reassPlace
  dsimp only
  split
  · exact ⟨hq, by simp⟩
  · exact tcpFlushQueue_fin so hq

theorem tcpReass_fin (pool : Bool) {tp : Tcpcb} (so : Socket) {th : Tcphdr} (m : List UInt8)
    {tlen : Nat} (h : QueueFin F tp.tSegq) (hlen : tlen < 2 ^ 16)
    (hfin : th.thFlags.fin = true → th.thSeq + BitVec.ofNat 32 tlen ∈ F) :
    QueueFin F (tcpReass pool tp so th m tlen).2.1.tSegq
      ∧ ((tcpReass pool tp so th m tlen).1 = true →
          (tcpReass pool tp so th m tlen).2.1.rcvNxt ∈ F) := by
  have hins : ∀ tp : Tcpcb, QueueFin F tp.tSegq →
      QueueFin F (reassInsert tp so th m tlen).2.1.tSegq
        ∧ ((reassInsert tp so th m tlen).1 = true →
            (reassInsert tp so th m tlen).2.1.rcvNxt ∈ F) := by
    intro tp h
    have hmem := segqFind_mem th.thSeq [] tp.tSegq
    have hb : QueueFin F (segqFind th.thSeq [] tp.tSegq).1 := h.sub fun e he => by
      simpa using hmem e (Or.inl he)
    have ha : QueueFin F (segqFind th.thSeq [] tp.tSegq).2 := h.sub fun e he => by
      simpa using hmem e (Or.inr he)
    unfold reassInsert
    dsimp only
    split
    · split_ifs with h1 h2
      · exact ⟨h, by simp⟩
      · refine reassPlace_fin so _ hb ha (by omega) fun hf => ?_
        rw [trim_end _ (by omega) (by omega)]
        exact hfin hf
      · exact reassPlace_fin so m hb ha hlen hfin
    · exact reassPlace_fin so m hb ha hlen hfin
  unfold tcpReass
  split_ifs
  · exact hins tp h
  · exact hins _ (h.sub fun e he => (List.dropLast_sublist _).subset he)
  · exact ⟨by simp [QueueFin], by simp⟩


/-! ## The number of a FIN -/

/-- The connection, if there is one left, keeps the queue `q`. -/
def Exit.Keeps (q : List Tcpqent) : Exit → Prop
  | .drop tp _ => tp.tSegq = q
  | .dropafterack tp _ _ => tp.tSegq = q
  | .done tp _ => tp.tSegq = q
  | .closed => True

/-- The number behind the text of a segment, where its FIN stands. -/
def finNumber (thSeq : Seq) (tiflags : ThFlags) (tlen : Nat) : Seq :=
  thSeq + (if tiflags.syn then 1#32 else 0#32) + BitVec.ofNat 32 tlen

/-- If `dodata` looks at the text at all, a FIN in the header stands behind it. -/
structure Text (F : Set Seq) (q : List Tcpqent) (c : Ctx) : Prop where
  tlen : c.tlen < 2 ^ 16
  fin : c.th.thFlags.fin = true → c.tlen ≠ 0 ∨ c.tiflags.fin = true →
    finNumber c.th.thSeq c.tiflags c.tlen ∈ F
  tSegq : c.tp.tSegq = q

theorem Text.kept {q : List Tcpqent} {c c' : Ctx} (h : Text F q c)
    (hc : c.Kept (fun q _ _ _ => q) c') : Text F q c' := by
  refine ⟨hc.tlen ▸ h.tlen, ?_, hc.view.trans h.tSegq⟩
  simp only [finNumber, hc.thFlags, hc.tlen, hc.fin, hc.thSeq, hc.syn]
  exact h.fin

/-- All of the text goes, and the FIN with it, or less than the segment takes
up: then the FIN stays where it was. -/
theorem dropHead_text {q : List Tcpqent} {c : Ctx} (todrop : Int)
    (hsyn : c.tiflags.syn = false) (h : Text F q c) : Text F q (dropHead todrop c) := by
  obtain ⟨h1, h2, h3⟩ := h
  have hlen : ∀ n : Nat, c.tlen - n < 2 ^ 16 := fun n => by omega
  unfold dropHead
  by_cases hold : todrop > c.tlen ∨ todrop = c.tlen ∧ c.tiflags.fin = false
  · simp only [if_pos hold]
    exact ⟨hlen _, fun _ hleft => by simp at hleft, h3⟩
  · simp only [if_neg hold]
    refine ⟨hlen _, fun hfin hleft => ?_, h3⟩
    have hle : todrop.toNat ≤ c.tlen := by omega
    have hnum := h2 hfin (hleft.imp_left fun h h' => h (by simp [h']))
    simp only [finNumber, hsyn, Bool.false_eq_true, if_false, BitVec.add_zero] at hnum ⊢
    rw [BitVec.add_assoc, ← BitVec.ofNat_add, Nat.add_sub_cancel' hle]
    exact hnum

theorem trimHead_text {q : List Tcpqent} {c : Ctx} (h : Text F q c) : Text F q (trimHead c) := by
  unfold trimHead
  dsimp only
  split
  · split
    · rename_i hsyn
      refine dropHead_text _ rfl ⟨h.tlen, fun hfin hleft => ?_, h.tSegq⟩
      have hnum := h.fin hfin hleft
      simp only [finNumber, hsyn, if_true] at hnum
      simpa only [finNumber, Bool.false_eq_true, if_false, BitVec.add_zero] using hnum
    · rename_i hsyn
      exact dropHead_text _ (by simpa using hsyn) h
  · exact h

/-- Cutting the tail moves the number; it is safe if it leaves no text. -/
theorem trimTail_ends {q : List Tcpqent} {c : Ctx} (h : Text F q c)
    (htail : c.th.thFlags.fin = true → tailDrop c > 0 → tailDrop c ≥ c.tlen) :
    Ends (Text F q) (Exit.Keeps q) (trimTail c) := by
  have hlen : ∀ n : Nat, c.tlen - n < 2 ^ 16 := fun n => by have := h.tlen; omega
  unfold trimTail
  dsimp only
  split_ifs with hpos hall hprobe
  · have hnone : c.tlen - (tailDrop c).toNat = 0 := by omega
    exact ⟨hlen _, fun _ hleft => by simp [hnone] at hleft, h.tSegq⟩
  · exact h.tSegq
  · exact ⟨hlen _, fun hfin _ => absurd (htail hfin hpos) hall, h.tSegq⟩
  · exact h

/-! ## The text -/

/-- When `dodata` leaves a FIN to be acted on, `rcv_nxt` is its number. -/
theorem dodata_fin (k : Kern) {q : List Tcpqent} {c : Ctx} (h : Text F q c)
    (hsyn : c.tiflags.syn = false) (hq : QueueFin F q) :
    QueueFin F (dodata k c).tp.tSegq
      ∧ ((dodata k c).tiflags.fin = true → (dodata k c).tp.rcvNxt ∈ F) := by
  obtain ⟨h1, h2, h3⟩ := h
  subst h3
  simp only [finNumber, hsyn, Bool.false_eq_true, if_false, BitVec.add_zero] at h2
  unfold dodata
  split
  · rename_i hdo
    split
    · rename_i hin
      refine ⟨(tcpSetupAck_tSegq k c.tiflags c.tp).symm ▸ hq, fun hfin => ?_⟩
      dsimp only at hfin ⊢
      rw [tcpSetupAck_rcvNxt, ← hin.1]
      exact h2 hfin hdo.1
    · have hreass := tcpReass_fin k.poolOk c.so (c.m.drop c.hdrop) hq h1 fun hfin => h2 hfin hdo.1
      exact hreass
  · exact ⟨hq, by simp⟩

/-! ## Segments -/

/-- The window does not cut off the tail of a FIN-carrying segment and leave text
before it. -/
def TailOk (seg : Segment) (tp : Tcpcb) (so : Socket) : Prop :=
  let c := trimHead (arrival seg tp so)
  seg.th.thFlags.fin = true → tailDrop c > 0 → tailDrop c ≥ c.tlen

instance (seg : Segment) (tp : Tcpcb) (so : Socket) : Decidable (TailOk seg tp so) :=
  inferInstanceAs (Decidable (_ → _))

/-- The number of the FIN a segment carries. -/
def Segment.finNumber (seg : Segment) : Seq :=
  Tcp.finNumber seg.th.thSeq seg.th.thFlags seg.m.length

theorem Exit.After.keeps {tlen : Nat} {tp : Tcpcb} {e : Exit}
    (h : e.After (fun q _ _ _ => q) tlen tp) : e.Keeps tp.tSegq := by
  cases e with
  | drop tp' so => exact h
  | dropafterack tp' so fl => exact h
  | done tp' so =>
      simp only [Exit.After] at h
      split at h
      · exact h
      · exact h.2
  | closed => trivial

theorem trimHead_thFlags (c : Ctx) : (trimHead c).th.thFlags = c.th.thFlags := by
  unfold trimHead
  dsimp only
  split
  · split <;> rfl
  · rfl

theorem textStages_ends (k : Kern) {seg : Segment} (sbCc : Nat) {tp : Tcpcb} {so : Socket}
    (hlen : seg.m.length < 2 ^ 16) (hfin : seg.th.thFlags.fin = true → seg.finNumber ∈ F)
    (htail : TailOk seg tp so) (hq : QueueFin F tp.tSegq) :
    Ends (fun c => QueueFin F c.tp.tSegq ∧ (c.tiflags.fin = true → c.tp.rcvNxt ∈ F))
      (Exit.Keeps tp.tSegq) (textStages k seg sbCc tp so) := by
  rw [textStages_eq]
  refine Ends.bind (P := fun c => Text F tp.tSegq c ∧ c.tiflags.syn = false) ?_ fun c hc =>
    dodata_fin k hc.1 hc.2 hq
  refine ((beforeText_ends k.output.keeps_tSegq seg sbCc tp so).imp fun c hc => ?_).imp_exit
    fun e he => he.keeps
  obtain ⟨hsyn, -, c₀, c₁, h₀, h₁, hkept⟩ := hc
  have hinit : Text F tp.tSegq (arrival seg tp so) := ⟨hlen, fun h _ => hfin h, rfl⟩
  have htext : Text F tp.tSegq c₀ := by
    have := trimHead_text hinit
    refine ⟨h₀.tlen ▸ this.tlen, ?_, h₀.tSegq.trans this.tSegq⟩
    rw [h₀.th, h₀.tlen, h₀.tiflags]
    exact this.fin
  have htail' : c₀.th.thFlags.fin = true → tailDrop c₀ > 0 → tailDrop c₀ ≥ c₀.tlen := by
    rw [tailDrop, h₀.th, h₀.tlen, h₀.rcvNxt, h₀.rcvWnd, trimHead_thFlags]
    exact htail
  have hends := trimTail_ends htext htail'
  rw [h₁] at hends
  exact ⟨hends.kept hkept, hsyn⟩

theorem TailOk.holesOnly {seg : Segment} {tp tp' : Tcpcb} {so : Socket} (h : TailOk seg tp so)
    (heq : HolesOnly tp tp') : TailOk seg tp' so := by
  obtain ⟨n, holes, last, rfl⟩ := heq
  have hlike : (arrival seg tp so).Alike
      (arrival seg { tp with sndNumholes := n, sndHoles := holes, rcvLastsack := last } so) :=
    ⟨⟨rfl, rfl, rfl, rfl, rfl, rfl, rfl, rfl⟩, rfl, rfl⟩
  have hhead := hlike.trimHead
  unfold TailOk tailDrop
  dsimp only
  rw [hhead.th, hhead.tlen, hhead.rcvNxt, hhead.rcvWnd]
  exact h

/-- What `finStage` does to `rcv_nxt` and to the queue. -/
theorem finStage_recv (c : Ctx) :
    (finStage c).tp.rcvNxt = (if actsOnFin c then c.tp.rcvNxt + 1#32 else c.tp.rcvNxt)
      ∧ (finStage c).tp.tSegq = c.tp.tSegq := by
  unfold finStage actsOnFin
  cases haveRcvdFin c.tp.tState <;> cases c.tiflags.fin && haveEstablished c.tp.tState <;>
    exact ⟨rfl, rfl⟩

/-- One segment: every FIN in the queue stays at a number of `F`, and a FIN is
acted on only when `rcv_nxt` is at such a number. -/
theorem tcpInput_fin {k : Kern} {seg : Segment} {sbCc : Nat} {tp tp' : Tcpcb} {so so' : Socket}
    {act : Option Seq} (hlen : seg.m.length < 2 ^ 16)
    (hfin : seg.th.thFlags.fin = true → seg.finNumber ∈ F) (htail : TailOk seg tp so)
    (hq : QueueFin F tp.tSegq) (h : tcpInput k seg sbCc tp so = some (tp', so', act)) :
    QueueFin F tp'.tSegq ∧ ∀ x ∈ act, x ∈ F := by
  obtain ⟨tp₁, hsack, h⟩ := Option.bind_eq_some_iff.mp h
  have heq := (tcpDelSackholes_holesOnly tp seg.th).trans (sackOptions_holesOnly _ _ _ hsack)
  have hsame : tp₁.tSegq = tp.tSegq := heq.view (v := fun q _ _ _ => q)
  have hends := textStages_ends k sbCc hlen hfin (htail.holesOnly heq) (hsame ▸ hq)
  rw [hsame] at hends
  split at h
  · rename_i c hc
    rw [hc] at hends
    obtain ⟨rfl, rfl, rfl⟩ : _ ∧ _ ∧ _ := by simpa only [Option.some.injEq, Prod.mk.injEq] using h
    refine ⟨?_, fun x hx => ?_⟩
    · have hout := Output.ite_view k.output.keeps_tSegq
        ((finStage c).tp.tfAcknow || (finStage c).tp.tfNeedoutput) (finStage c).tp
      simp only [Tcpcb.view, (finStage_recv c).2] at hout
      rw [hout]
      exact hends.1
    · split at hx
      · rename_i hact
        obtain rfl := Option.some.inj hx
        simp only [actsOnFin, Bool.and_eq_true] at hact
        exact hends.2 hact.1.1
      · cases hx
  · rename_i hx
    rw [hx] at hends
    obtain ⟨rfl, rfl, rfl⟩ : _ ∧ _ ∧ _ := by simpa only [Option.some.injEq, Prod.mk.injEq] using h
    exact ⟨hends.symm ▸ hq, by simp⟩
  · rename_i hx
    rw [hx] at hends
    obtain ⟨rfl, rfl, rfl⟩ : _ ∧ _ ∧ _ := by simpa only [Option.some.injEq, Prod.mk.injEq] using h
    refine ⟨?_, by simp⟩
    split
    · exact hends.symm ▸ hq
    · rw [k.output.tSegq]
      exact hends.symm ▸ hq
  · rename_i hx
    rw [hx] at hends
    obtain ⟨rfl, rfl, rfl⟩ : _ ∧ _ ∧ _ := by simpa only [Option.some.injEq, Prod.mk.injEq] using h
    exact ⟨hends.symm ▸ hq, by simp⟩
  · cases h

end Fin

/-! ## Runs -/

/-- A connection, the numbers of the FINs that have arrived on it, and the values
of `rcv_nxt` at which a FIN was acted on. -/
structure FinConn where
  tp : Tcpcb
  so : Socket
  fins : List Seq
  acted : List Seq
deriving DecidableEq, Repr

inductive FinAct where
  | segment (k : Kern) (seg : Segment) (sbCc : Nat)
  /-- The rest of the kernel: it may free the reassembly queue, and the space in the
  socket buffers changes. -/
  | other (tp : Tcpcb) (so : Socket)

def finStep (s : FinConn) : FinAct → Option FinConn
  | .segment k seg sbCc =>
    if haveEstablished s.tp.tState then
      (tcpInput k seg sbCc s.tp s.so).map fun (tp, so, act) =>
        { tp := tp
          so := so
          fins := if seg.th.thFlags.fin then seg.finNumber :: s.fins else s.fins
          acted := act.toList ++ s.acted }
    else none
  | .other tp so =>
    if tp.tSegq = s.tp.tSegq ∨ tp.tSegq = [] then some { s with tp := tp, so := so } else none

/-- An IP packet is shorter than `2^16`. -/
def Fits : FinAct → Prop
  | .segment _ seg _ => seg.m.length < 2 ^ 16
  | .other _ _ => True

instance : DecidablePred Fits
  | .segment _ seg _ => inferInstanceAs (Decidable (seg.m.length < 2 ^ 16))
  | .other _ _ => isTrue trivial

/-- No segment with a FIN loses its tail, and not all its text, to the window. -/
def FinGuard (s : FinConn) (a : FinAct) : Prop :=
  Fits a ∧ match a with
    | .segment _ seg _ => TailOk seg s.tp s.so
    | .other _ _ => True

instance decidableFinGuard (s : FinConn) : ∀ a : FinAct, Decidable (FinGuard s a)
  | .segment k seg sbCc =>
    inferInstanceAs (Decidable (Fits (.segment k seg sbCc) ∧ TailOk seg s.tp s.so))
  | .other tp so => inferInstanceAs (Decidable (Fits (.other tp so) ∧ True))

/-- Queued FINs are FINs that arrived, and so are those acted on. -/
structure FinInv (s : FinConn) : Prop where
  queue : QueueFin {x | x ∈ s.fins} s.tp.tSegq
  acted : ∀ x ∈ s.acted, x ∈ s.fins

theorem QueueFin.mono {F F' : Set Seq} {q : List Tcpqent} (h : QueueFin F q) (hF : F ⊆ F') :
    QueueFin F' q := fun e he hf => hF (h e he hf)

theorem finStep_inv {s s' : FinConn} {a : FinAct} (hg : FinGuard s a) (h : finStep s a = some s')
    (hi : FinInv s) : FinInv s' := by
  cases a with
  | segment k seg sbCc =>
      obtain ⟨hlen, htail⟩ := hg
      simp only [finStep] at h
      split at h
      · obtain ⟨⟨tp, so, act⟩, hin, rfl⟩ := Option.map_eq_some_iff.mp h
        have hsub : ∀ x ∈ s.fins, x ∈ if seg.th.thFlags.fin then seg.finNumber :: s.fins else s.fins := by
          intro x hx
          split
          · exact List.mem_cons_of_mem _ hx
          · exact hx
        have hnew := tcpInput_fin
          (F := {x | x ∈ if seg.th.thFlags.fin then seg.finNumber :: s.fins else s.fins}) hlen
          (fun hf => by simp [hf]) htail (hi.queue.mono hsub) hin
        refine ⟨hnew.1, fun x hx => ?_⟩
        rcases List.mem_append.mp hx with hx | hx
        · exact hnew.2 x (Option.mem_toList.mp hx)
        · exact hsub x (hi.acted x hx)
      · cases h
  | other tp so =>
      simp only [finStep] at h
      split at h
      · rename_i hq
        obtain rfl := Option.some.inj h
        refine ⟨?_, hi.acted⟩
        rcases hq with hq | hq
        · rw [hq]
          exact hi.queue
        · rw [hq]
          intro e he
          cases he
      · cases h

/-- On a connection whose queue holds no FIN but those that have arrived, `tcp_input`
acts on a FIN only when `rcv_nxt` is the number of a FIN that has arrived. -/
theorem fin_runs {s₀ s : FinConn} (hq : QueueFin {x | x ∈ s₀.fins} s₀.tp.tSegq)
    (hacted : s₀.acted = []) (h : Runs finStep FinGuard s₀ s) : ∀ x ∈ s.acted, x ∈ s.fins := by
  have hinit : FinInv s₀ := ⟨hq, by simp [hacted]⟩
  exact (h.invariant (fun _ _ _ hg hst hi => finStep_inv hg hst hi) hinit).acted

/-! ## Concrete runs -/

/-- A `tcp_output` that has nothing to send. -/
def silent : Output where
  run tp := { tp with tfAcknow := false, tfNeedoutput := false }
  tState _ := rfl
  tSegq _ := rfl
  rcvNxt _ := rfl

/-- A connection with room for `space` bytes. -/
def listening (space : Int) : FinConn where
  tp := { tState := .established, rcvNxt := 100#32, rcvAdv := 100#32, tMaxseg := 512 }
  so := { sbspaceRcv := space }
  fins := []
  acted := []

/-- Ten bytes in sequence and a FIN. -/
def lastSegment : FinAct :=
  .segment { output := silent }
    { th := ⟨100#32, 0#32, { ack := true, fin := true }, 0⟩
      thWin := 0
      opti := {}
      sackOpts := []
      m := [0, 1, 2, 3, 4, 5, 6, 7, 8, 9] } 0

/-- What is left when `n` bytes of it were taken in, and the FIN. -/
def closedAfter (space : Int) (n : Nat) : FinConn where
  tp := { (listening space).tp with
    tState := .closeWait
    tfDelack := true
    sndWl1 := 100#32
    rcvUp := 100#32
    rcvNxt := 101#32 + BitVec.ofNat 32 n
    rcvWnd := space.toNat }
  so := { (listening space).so with
    ssCantrcvmore := true
    soRcv := [0, 1, 2, 3, 4, 5, 6, 7, 8, 9].take n }
  fins := [110#32]
  acted := [100#32 + BitVec.ofNat 32 n]

theorem fin_runs_in_window :
    Runs finStep FinGuard (listening 4096) (closedAfter 4096 10)
      ∧ ∀ x ∈ [110#32], x ∈ (closedAfter 4096 10).fins := by
  have hrun : Runs finStep FinGuard (listening 4096) (closedAfter 4096 10) :=
    Runs.of_exec (fun _ _ => of_decide_eq_true) [lastSegment] (by decide +kernel)
  exact ⟨hrun, fin_runs (by simp [QueueFin, listening]) rfl hrun⟩

/-- With room for four bytes the FIN is cut off with the other six, yet acted on
behind the fourth. -/
theorem fin_runs_cut_off :
    ∃ s : FinConn, Runs finStep (fun _ a => Fits a) (listening 4) s ∧ s.tp.tState = .closeWait
      ∧ s.so.soRcv = [0, 1, 2, 3] ∧ s.fins = [110#32] ∧ s.acted = [104#32] := by
  refine ⟨closedAfter 4 4, ?_, rfl, rfl, rfl, rfl⟩
  exact Runs.of_exec (fun _ _ => of_decide_eq_true) [lastSegment] (by decide +kernel)

end Obsd.Tcp
