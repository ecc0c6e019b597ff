import Obsd.TcpInput

/-!
# The stages of `tcp_input`

What the stages between the arrival of a segment and its text leave
alone. Up to the trimming the segment is as it came; from there to
`dodata` its number, its length and its FIN stay, and of the control
block the stages touch the send side only. What is kept of the receive
side is stated for any part `v` of it that `tcp_output` keeps too.
-/

namespace Obsd.Tcp

/-! ## Ends of a stage -/

/-- How a stage ends: in `Q`, or through an exit in `E`. -/
def Ends (Q : Ctx → Prop) (E : Exit → Prop) : Except Exit Ctx → Prop
  | .ok c => Q c
  | .error e => E e

theorem Ends.bind {P Q : Ctx → Prop} {E : Exit → Prop} {x : Except Exit Ctx}
    {f : Ctx → Except Exit Ctx} (h : Ends P E x) (hf : ∀ c, P c → Ends Q E (f c)) :
    Ends Q E (x >>= f) := by
  cases x with
  | ok c => exact hf c h
  | error e => exact h

theorem Ends.imp {P Q : Ctx → Prop} {E : Exit → Prop} {x : Except Exit Ctx} (h : Ends P E x)
    (himp : ∀ c, P c → Q c) : Ends Q E x := by
  cases x with
  | ok c => exact himp c h
  | error e => exact h

theorem Ends.imp_exit {P : Ctx → Prop} {E E' : Exit → Prop} {x : Except Exit Ctx} (h : Ends P E x)
    (himp : ∀ e, E e → E' e) : Ends P E' x := by
  cases x with
  | ok c => exact h
  | error e => exact himp e h

/-! ## The long way -/

/-- The window a segment advertises. -/
def tiwinOf (seg : Segment) (tp : Tcpcb) : Nat :=
  if seg.th.thFlags.syn then seg.thWin else seg.thWin * 2 ^ tp.sndScale

/-- The segment as it comes to header prediction. -/
def received (k : Kern) (seg : Segment) (tp : Tcpcb) (so : Socket) : Ctx :=
  ⟨if k.iptosCe then { tp with tfRcvdCe := true } else tp, so, seg.th, seg.th.thFlags,
    seg.m.length, 0, seg.m⟩

/-- From header prediction to `dodata`. -/
def longWay (k : Kern) (seg : Segment) (sbCc tiwin : Nat) (c : Ctx) : Except Exit Ctx := do
  let c ← timeWaitReuse seg { c with tp := { c.tp with rcvWnd := rcvWindow c.tp c.so } }
  let c ← pawsCheck k seg c
  let c ← afterClose (trimHead c)
  let c ← trimTail c
  let c ← rstCheck (recordTimestamp k seg c)
  let c ← synAckCheck k c
  let c ← ackStage k tiwin c
  return urgentStage k sbCc (windowUpdate tiwin c)

/-- The segment that reaches its text. -/
def beforeText (k : Kern) (seg : Segment) (sbCc : Nat) (tp : Tcpcb) (so : Socket) :
    Except Exit Ctx := do
  let c ← headerPrediction k seg (tiwinOf seg tp) (received k seg tp so)
  longWay k seg sbCc (tiwinOf seg tp) c

theorem textStages_eq (k : Kern) (seg : Segment) (sbCc : Nat) (tp : Tcpcb) (so : Socket) :
    textStages k seg sbCc tp so = do
      let c ← beforeText k seg sbCc tp so
      return dodata k c := by
  simp only [textStages, beforeText, longWay, tiwinOf, received, bind_assoc, pure_bind]

/-! ## The receive side -/

section View

variable {α : Type*} {v : List Tcpqent → Seq → Bool → Bool → α}

/-- A part of the receive side. -/
def Tcpcb.view (v : List Tcpqent → Seq → Bool → Bool → α) (tp : Tcpcb) : α :=
  v tp.tSegq tp.rcvNxt tp.sackEnable (haveEstablished tp.tState)

def Output.Keeps (v : List Tcpqent → Seq → Bool → Bool → α) (o : Output) : Prop :=
  ∀ tp, (o.run tp).view v = tp.view v

theorem Output.keeps_tSegq (o : Output) : o.Keeps fun q _ _ _ => q := o.tSegq

/-- The segment is dropped, and the connection, if there is one left, has `a` for
its part of the receive side. -/
def Exit.View (v : List Tcpqent → Seq → Bool → Bool → α) (a : α) : Exit → Prop
  | .drop tp _ => tp.view v = a
  | .dropafterack tp _ _ => tp.view v = a
  | .done _ _ => False
  | .closed => True

/-- Number, length and FIN of the segment are kept, and the receive side. -/
structure Ctx.Kept (v : List Tcpqent → Seq → Bool → Bool → α) (c c' : Ctx) : Prop where
  thSeq : c'.th.thSeq = c.th.thSeq
  thFlags : c'.th.thFlags = c.th.thFlags
  tlen : c'.tlen = c.tlen
  fin : c'.tiflags.fin = c.tiflags.fin
  syn : c'.tiflags.syn = c.tiflags.syn
  view : c'.tp.view v = c.tp.view v

theorem Ctx.Kept.rfl {c : Ctx} : c.Kept v c := ⟨.refl _, .refl _, .refl _, .refl _, .refl _, .refl _⟩

theorem Ctx.Kept.trans {c c' c'' : Ctx} (h : c.Kept v c') (h' : c'.Kept v c'') : c.Kept v c'' :=
  ⟨h'.thSeq.trans h.thSeq, h'.thFlags.trans h.thFlags, h'.tlen.trans h.tlen, h'.fin.trans h.fin,
    h'.syn.trans h.syn, h'.view.trans h.view⟩

theorem Ctx.Kept.withTp {c : Ctx} {tp : Tcpcb} (h : tp.view v = c.tp.view v) :
    c.Kept v { c with tp := tp } := ⟨.refl _, .refl _, .refl _, .refl _, .refl _, h⟩

/-! ## SACK options -/

/-- Nothing but the holes of the SACK sender has changed. -/
def HolesOnly (tp tp' : Tcpcb) : Prop :=
  ∃ (n : Int) (holes : List Sackhole) (last : Seq),
    tp' = { tp with sndNumholes := n, sndHoles := holes, rcvLastsack := last }

theorem HolesOnly.rfl {tp : Tcpcb} : HolesOnly tp tp := ⟨_, _, _, .refl _⟩

theorem HolesOnly.trans {tp tp' tp'' : Tcpcb} (h : HolesOnly tp tp') (h' : HolesOnly tp' tp'') :
    HolesOnly tp tp'' := by
  obtain ⟨_, _, _, rfl⟩ := h
  obtain ⟨_, _, _, rfl⟩ := h'
  exact ⟨_, _, _, .refl _⟩

theorem HolesOnly.view {tp tp' : Tcpcb} (h : HolesOnly tp tp') : tp'.view v = tp.view v := by
  obtain ⟨_, _, _, rfl⟩ := h
  exact .refl _

def Sacked.HolesOnly (tp : Tcpcb) : Sacked → Prop
  | .next tp' _ => Tcp.HolesOnly tp tp'
  | .done tp' => Tcp.HolesOnly tp tp'
  | .spins => True
  | .panic => True

theorem HolesOnly.sacked {tp tp' : Tcpcb} (h : HolesOnly tp tp') {r : Sacked}
    (hr : r.HolesOnly tp') : r.HolesOnly tp := by
  cases r with
  | next tp'' _ => exact h.trans hr
  | done tp'' => exact h.trans hr
  | spins => trivial
  | panic => trivial

theorem sackBlock_holesOnly (thAck : Seq) (tp : Tcpcb) (pools : List Bool) (sack : Sackblk) :
    (sackBlock thAck tp pools sack).HolesOnly tp := by
  unfold sackBlock
  split
  · exact .rfl
  · split
    · split
      · exact ⟨_, _, _, .refl _⟩
      · exact .rfl
    · split
      · trivial
      · exact ⟨_, _, _, .refl _⟩
      · split
        · split
          · split
            · trivial
            · exact ⟨_, _, _, .refl _⟩
          · exact ⟨_, _, _, .refl _⟩
        · exact ⟨_, _, _, .refl _⟩

theorem sackLoop_holesOnly (thAck : Seq) :
    ∀ (tp : Tcpcb) (pools : List Bool) (sacks : List Sackblk),
      (sackLoop thAck tp pools sacks).HolesOnly tp
  | tp, _, [] => .rfl
  | tp, pools, sack :: rest => by
      have h := sackBlock_holesOnly thAck tp pools sack
      rw [sackLoop]
      split
      · rename_i tp' pools' heq
        rw [heq] at h
        exact HolesOnly.sacked h (sackLoop_holesOnly thAck tp' pools' rest)
      · exact h

theorem tcpSackOption_holesOnly (tp : Tcpcb) (th : Tcphdr) (cp : List UInt8) (pools : List Bool) :
    (tcpSackOption tp th cp pools).HolesOnly tp := by
  unfold tcpSackOption
  dsimp only
  generalize htp : ite (tp.sndNumholes < 0) { tp with sndNumholes := 0 } tp = tp'
  have heq : HolesOnly tp tp' := by
    rw [← htp]
    split
    · exact ⟨_, _, _, .refl _⟩
    · exact .rfl
  split_ifs
  · exact .rfl
  · exact .rfl
  · exact .rfl
  · trivial
  · exact heq.sacked (sackLoop_holesOnly ..)

theorem sackOptions_holesOnly (th : Tcphdr) :
    ∀ (tp : Tcpcb) (opts : List (List UInt8 × List Bool)) {tp' : Tcpcb},
      sackOptions th tp opts = some tp' → HolesOnly tp tp'
  | tp, [], tp', h => by
      obtain rfl : tp = tp' := Option.some.inj h
      exact .rfl
  | tp, (cp, pools) :: rest, tp', h => by
      have hopt := tcpSackOption_holesOnly tp th cp pools
      rw [sackOptions] at h
      split at h
      · rename_i heq
        rw [heq] at hopt
        exact hopt.trans (sackOptions_holesOnly th _ rest h)
      · rename_i heq
        rw [heq] at hopt
        exact hopt.trans (sackOptions_holesOnly th _ rest h)
      · cases h
      · cases h

theorem tcpDelSackholes_holesOnly (tp : Tcpcb) (th : Tcphdr) :
    HolesOnly tp (tcpDelSackholes tp th) := by
  unfold tcpDelSackholes
  split
  · exact ⟨_, _, _, .refl _⟩
  · exact .rfl

/-! ## Acknowledgments -/

theorem fastRetransmit_view {k : Kern} (hk : k.output.Keeps v) (c : Ctx) (tp : Tcpcb) :
    (fastRetransmit k c tp).view v = tp.view v := by
  unfold fastRetransmit
  dsimp only
  split_ifs <;> exact hk _

theorem partialAck_view {k : Kern} (hk : k.output.Keeps v) (thAck : Seq) (tp : Tcpcb) :
    (partialAck k thAck tp).view v = tp.view v := by
  unfold partialAck
  split
  · rfl
  · exact hk _

theorem recoveryStage_view {k : Kern} (hk : k.output.Keeps v) (thAck : Seq) (tp : Tcpcb) :
    (recoveryStage k thAck tp).view v = tp.view v := by
  unfold recoveryStage
  dsimp only
  generalize htp : ite (tp.tDupacks ≥ tcprexmtthresh)
    (ite (seqLt thAck tp.sndLast) (partialAck k thAck tp) (leaveRecovery thAck tp)) tp = tp'
  have hq : tp'.view v = tp.view v := by
    rw [← htp]
    split_ifs
    · exact partialAck_view hk thAck tp
    · rfl
    · rfl
  split
  · exact hq
  · exact hq

theorem openCwnd_view (tp : Tcpcb) : (openCwnd tp).view v = tp.view v := by
  unfold openCwnd
  split <;> rfl

theorem takeAck_view (thAck : Seq) (tp : Tcpcb) (so : Socket) :
    (takeAck thAck tp so).2.1.view v = tp.view v := by
  unfold takeAck
  generalize htp : ite (thAck = tp.sndMax) { tp with rexmtArmed := false, tfNeedoutput := true }
    (ite (!tp.persistArmed) { tp with rexmtArmed := true } tp) = tp'
  have hq : tp'.view v = tp.view v := by
    rw [← htp]
    split_ifs <;> rfl
  exact (openCwnd_view tp').trans hq

theorem finAcked_kept (ours : Bool) (c : Ctx) :
    Ends (c.Kept v) (Exit.View v (c.tp.view v)) (finAcked ours c) := by
  unfold finAcked
  split
  · rename_i hst
    split
    · exact .withTp (by simp [Tcpcb.view, hst, haveEstablished, State.num])
    · exact .rfl
  · rename_i hst
    split
    · exact .withTp (by simp [Tcpcb.view, hst, haveEstablished, State.num])
    · exact .rfl
  · split
    · trivial
    · exact .rfl
  · exact Eq.refl _
  · exact .rfl

theorem dupAck_kept {k : Kern} (hk : k.output.Keeps v) (tiwin : Nat) (c : Ctx) :
    Ends (c.Kept v) (Exit.View v (c.tp.view v)) (dupAck k tiwin c) := by
  unfold dupAck
  dsimp only
  split_ifs
  · exact Eq.refl _
  · exact .rfl
  · exact .withTp (Eq.refl _)
  · exact .withTp (Eq.refl _)
  · exact Eq.refl _
  · exact fastRetransmit_view hk ..
  · exact hk _
  · exact .withTp (Eq.refl _)
  · exact .withTp (Eq.refl _)
  · exact .rfl

theorem ecnStage_kept (k : Kern) (c : Ctx) : c.Kept v (ecnStage k c) := by
  refine .withTp ?_
  split_ifs <;> rfl

theorem ackStage_kept {k : Kern} (hk : k.output.Keeps v) (tiwin : Nat) (c : Ctx) :
    Ends (c.Kept v) (Exit.View v (c.tp.view v)) (ackStage k tiwin c) := by
  have hecn := ecnStage_kept (v := v) k c
  unfold ackStage
  dsimp only
  generalize ecnStage k c = c' at hecn ⊢
  have hrec : (recoveryStage k c'.th.thAck c'.tp).view v = c.tp.view v :=
    (recoveryStage_view hk ..).trans hecn.view
  split_ifs
  · rw [← hecn.view]
    exact (dupAck_kept hk tiwin c').imp fun c'' h => hecn.trans h
  · exact hrec
  · exact hrec
  · have hack := (takeAck_view c'.th.thAck (recoveryStage k c'.th.thAck c'.tp) c'.so).trans hrec
    rw [← hack]
    refine (finAcked_kept _ _).imp fun c'' h => Ctx.Kept.trans ?_ h
    exact ⟨hecn.thSeq, hecn.thFlags, hecn.tlen, hecn.fin, hecn.syn, hack⟩

/-! ## Other stages behind the trimming -/

theorem recordTimestamp_kept (k : Kern) (seg : Segment) (c : Ctx) :
    c.Kept v (recordTimestamp k seg c) := by
  unfold recordTimestamp
  split
  · exact .withTp (Eq.refl _)
  · exact .rfl

theorem rstCheck_kept (c : Ctx) : Ends (c.Kept v) (Exit.View v (c.tp.view v)) (rstCheck c) := by
  unfold rstCheck
  split_ifs
  · exact Eq.refl _
  · trivial
  · exact .rfl

/-- From here on there is no SYN. -/
theorem synAckCheck_kept (k : Kern) (c : Ctx) :
    Ends (fun c' => c.Kept v c' ∧ c'.tiflags.syn = false) (Exit.View v (c.tp.view v))
      (synAckCheck k c) := by
  unfold synAckCheck
  split_ifs with hsyn
  · exact Eq.refl _
  · exact Eq.refl _
  · exact Eq.refl _
  · exact Eq.refl _
  · exact ⟨.rfl, by simpa using hsyn⟩

theorem windowUpdate_kept (tiwin : Nat) (c : Ctx) : c.Kept v (windowUpdate tiwin c) := by
  unfold windowUpdate
  split
  · exact .withTp (Eq.refl _)
  · exact .rfl

theorem urgentStage_kept (k : Kern) (sbCc : Nat) (c : Ctx) : c.Kept v (urgentStage k sbCc c) := by
  unfold urgentStage
  dsimp only
  split
  · split
    · exact ⟨.refl _, .refl _, .refl _, .refl _, .refl _, .refl _⟩
    · refine ⟨.refl _, .refl _, .refl _, .refl _, .refl _, ?_⟩
      split <;> rfl
  · split
    · exact .withTp (Eq.refl _)
    · exact .rfl

/-- The stages behind the trimming, up to the text. -/
def flagStages (k : Kern) (seg : Segment) (sbCc tiwin : Nat) (c : Ctx) : Except Exit Ctx := do
  let c ← rstCheck (recordTimestamp k seg c)
  let c ← synAckCheck k c
  let c ← ackStage k tiwin c
  return urgentStage k sbCc (windowUpdate tiwin c)

theorem flagStages_kept {k : Kern} (hk : k.output.Keeps v) (seg : Segment) (sbCc tiwin : Nat)
    (c : Ctx) :
    Ends (fun c' => c.Kept v c' ∧ c'.tiflags.syn = false) (Exit.View v (c.tp.view v))
      (flagStages k seg sbCc tiwin c) := by
  have hrec := recordTimestamp_kept (v := v) k seg c
  refine Ends.bind (P := c.Kept v) ?_ fun c₁ h₁ => ?_
  · rw [← hrec.view]
    exact (rstCheck_kept _).imp fun c' h => hrec.trans h
  refine Ends.bind (P := fun c' => c.Kept v c' ∧ c'.tiflags.syn = false) ?_ fun c₂ h₂ => ?_
  · rw [← h₁.view]
    exact (synAckCheck_kept k c₁).imp fun c' h => ⟨h₁.trans h.1, h.2⟩
  refine Ends.bind (P := fun c' => c.Kept v c' ∧ c'.tiflags.syn = false) ?_ fun c₃ h₃ => ?_
  · rw [← h₂.1.view]
    exact (ackStage_kept hk tiwin c₂).imp fun c' h => ⟨h₂.1.trans h, h.syn.trans h₂.2⟩
  have hlast := (windowUpdate_kept (v := v) tiwin c₃).trans
    (urgentStage_kept k sbCc (windowUpdate tiwin c₃))
  exact ⟨h₃.1.trans hlast, hlast.syn.trans h₃.2⟩

/-! ## Stages before the trimming -/

/-- The segment is as it came, and so is the receive side. -/
structure Ctx.Like (c c' : Ctx) : Prop where
  th : c'.th = c.th
  tiflags : c'.tiflags = c.tiflags
  tlen : c'.tlen = c.tlen
  so : c'.so = c.so
  tSegq : c'.tp.tSegq = c.tp.tSegq
  rcvNxt : c'.tp.rcvNxt = c.tp.rcvNxt
  rcvAdv : c'.tp.rcvAdv = c.tp.rcvAdv
  rcvWnd : c'.tp.rcvWnd = c.tp.rcvWnd

/-- And neither the state nor the use of SACK has changed. -/
structure Ctx.Alike (c c' : Ctx) : Prop extends Ctx.Like c c' where
  sackEnable : c'.tp.sackEnable = c.tp.sackEnable
  tState : c'.tp.tState = c.tp.tState

theorem Ctx.Alike.rfl {c : Ctx} : c.Alike c :=
  ⟨⟨.refl _, .refl _, .refl _, .refl _, .refl _, .refl _, .refl _, .refl _⟩, .refl _, .refl _⟩

theorem Ctx.Alike.trans {c c' c'' : Ctx} (h : c.Alike c') (h' : c'.Alike c'') : c.Alike c'' :=
  ⟨⟨h'.th.trans h.th, h'.tiflags.trans h.tiflags, h'.tlen.trans h.tlen, h'.so.trans h.so,
    h'.tSegq.trans h.tSegq, h'.rcvNxt.trans h.rcvNxt, h'.rcvAdv.trans h.rcvAdv,
    h'.rcvWnd.trans h.rcvWnd⟩, h'.sackEnable.trans h.sackEnable, h'.tState.trans h.tState⟩

theorem Ctx.Alike.view {c c' : Ctx} (h : c.Alike c') : c'.tp.view v = c.tp.view v := by
  simp only [Tcpcb.view, h.tSegq, h.rcvNxt, h.sackEnable, h.tState]

theorem tcpSetupAck_view (k : Kern) (fl : ThFlags) (tp : Tcpcb) :
    (tcpSetupAck k fl tp).view v = tp.view v := by
  unfold tcpSetupAck; split <;> rfl

theorem tcpSetupAck_tSegq (k : Kern) (fl : ThFlags) (tp : Tcpcb) :
    (tcpSetupAck k fl tp).tSegq = tp.tSegq := by
  unfold tcpSetupAck; split <;> rfl

theorem tcpSetupAck_rcvNxt (k : Kern) (fl : ThFlags) (tp : Tcpcb) :
    (tcpSetupAck k fl tp).rcvNxt = tp.rcvNxt := by
  unfold tcpSetupAck; split <;> rfl

theorem Output.ite_view {k : Kern} (hk : k.output.Keeps v) (p : Prop) [Decidable p] (tp : Tcpcb) :
    (if p then k.output.run tp else tp).view v = tp.view v := by
  split
  · exact hk tp
  · rfl

/-- How `tcp_input` leaves a connection `tp` before the text: only data that was
predicted has moved `rcv_nxt`. -/
def Exit.After (v : List Tcpqent → Seq → Bool → Bool → α) (tlen : Nat) (tp : Tcpcb) : Exit → Prop
  | .drop tp' _ => tp'.view v = tp.view v
  | .dropafterack tp' _ _ => tp'.view v = tp.view v
  | .done tp' _ =>
    if tlen = 0 then tp'.view v = tp.view v
    else tp.tSegq = []
      ∧ tp'.view v = Tcpcb.view v { tp with rcvNxt := tp.rcvNxt + BitVec.ofNat 32 tlen }
  | .closed => True

theorem headerPrediction_ends {k : Kern} (hk : k.output.Keeps v) (seg : Segment) (tiwin : Nat)
    (c : Ctx) : Ends c.Alike (Exit.After v c.tlen c.tp) (headerPrediction k seg tiwin c) := by
  unfold headerPrediction
  dsimp only
  split
  · generalize htp : ite (seg.opti.tsPresent && seqLeq c.th.thSeq c.tp.lastAckSent)
      { c.tp with tsRecentAge := k.tcpNow, tsRecent := seg.opti.tsVal } c.tp = tp
    have hlike : c.Alike { c with tp := tp } := by
      rw [← htp]
      split
      · exact ⟨⟨.refl _, .refl _, .refl _, .refl _, .refl _, .refl _, .refl _, .refl _⟩, .refl _,
          .refl _⟩
      · exact .rfl
    split
    · rename_i hlen
      split
      · simp only [Ends, Exit.After, if_pos hlen]
        exact (Output.ite_view hk ..).trans hlike.view
      · exact hlike
    · rename_i hlen
      split
      · rename_i hdata
        simp only [Ends, Exit.After, if_neg hlen]
        refine ⟨hlike.tSegq ▸ hdata.2.1, ?_⟩
        rw [Output.ite_view hk, tcpSetupAck_view]
        have hsame := hlike
        simp only [Tcpcb.view]
        rw [← hsame.tSegq, ← hsame.rcvNxt, ← hsame.sackEnable, ← hsame.tState]
      · exact hlike
  · exact .rfl

theorem timeWaitReuse_ends (seg : Segment) (a : α) (c : Ctx) :
    Ends c.Alike (Exit.View v a) (timeWaitReuse seg c) := by
  unfold timeWaitReuse
  split
  · trivial
  · exact .rfl

theorem pawsCheck_ends (k : Kern) (seg : Segment) (c : Ctx) :
    Ends c.Alike (Exit.View v (c.tp.view v)) (pawsCheck k seg c) := by
  unfold pawsCheck
  split
  · split
    · exact ⟨⟨.refl _, .refl _, .refl _, .refl _, .refl _, .refl _, .refl _, .refl _⟩, .refl _,
        .refl _⟩
    · exact Eq.refl _
  · exact .rfl

theorem afterClose_ends (a : α) (c : Ctx) : Ends c.Alike (Exit.View v a) (afterClose c) := by
  unfold afterClose
  split
  · trivial
  · exact .rfl

theorem Ctx.Alike.dropHead {c c' : Ctx} (h : c.Alike c') (todrop : Int) :
    (dropHead todrop c).Alike (dropHead todrop c') := by
  obtain ⟨⟨h1, h2, h3, h4, h5, h6, h7, h8⟩, h9, h10⟩ := h
  unfold Tcp.dropHead
  rw [h1, h2, h3, h4]
  refine ⟨⟨.refl _, .refl _, .refl _, .refl _, ?_, ?_, ?_, ?_⟩, ?_, ?_⟩ <;> dsimp only <;>
    split_ifs <;> assumption

theorem Ctx.Alike.trimHead {c c' : Ctx} (h : c.Alike c') : (trimHead c).Alike (trimHead c') := by
  unfold Tcp.trimHead
  dsimp only
  rw [h.th, h.tiflags, h.rcvNxt]
  split
  · split
    · refine Ctx.Alike.dropHead ?_ _
      exact ⟨⟨.refl _, .refl _, h.tlen, h.so, h.tSegq, h.rcvNxt, h.rcvAdv, h.rcvWnd⟩, h.sackEnable,
        h.tState⟩
    · exact h.dropHead _
  · exact h

theorem trimHead_view (c : Ctx) : (trimHead c).tp.view v = c.tp.view v := by
  have hdrop : ∀ (todrop : Int) (c : Ctx), (dropHead todrop c).tp.view v = c.tp.view v := by
    intro todrop c
    unfold dropHead
    dsimp only
    split <;> rfl
  unfold trimHead
  dsimp only
  split
  · split
    · exact hdrop _ _
    · exact hdrop _ _
  · rfl

theorem trimTail_view (c : Ctx) :
    Ends (fun c' => c'.tp.view v = c.tp.view v) (Exit.View v (c.tp.view v)) (trimTail c) := by
  unfold trimTail
  dsimp only
  split_ifs <;> exact Eq.refl _

/-- The segment as `tcp_input` first sees it, with the window it is held against. -/
def arrival (seg : Segment) (tp : Tcpcb) (so : Socket) : Ctx :=
  ⟨{ tp with rcvWnd := rcvWindow tp so }, so, seg.th, seg.th.thFlags, seg.m.length, 0, seg.m⟩

theorem Exit.View.after {tlen : Nat} {tp : Tcpcb} {e : Exit} (h : e.View v (tp.view v)) :
    e.After v tlen tp := by
  cases e with
  | drop tp' so => exact h
  | dropafterack tp' so fl => exact h
  | done tp' so => exact h.elim
  | closed => trivial

theorem received_alike (k : Kern) (seg : Segment) (tp : Tcpcb) (so : Socket) :
    Ctx.Alike ⟨tp, so, seg.th, seg.th.thFlags, seg.m.length, 0, seg.m⟩ (received k seg tp so) := by
  unfold received
  cases k.iptosCe with
  | true =>
      exact ⟨⟨.refl _, .refl _, .refl _, .refl _, .refl _, .refl _, .refl _, .refl _⟩, .refl _,
        .refl _⟩
  | false => exact .rfl

theorem Exit.After.of_alike {c c' : Ctx} {tlen : Nat} {e : Exit} (h : e.After v tlen c'.tp)
    (hc : c.Alike c') : e.After v tlen c.tp := by
  cases e with
  | drop tp so => exact h.trans hc.view
  | dropafterack tp so fl => exact h.trans hc.view
  | done tp so =>
      simp only [Exit.After] at h ⊢
      split at h
      · rw [if_pos ‹_›]
        exact h.trans hc.view
      · rw [if_neg ‹_›]
        simp only [Tcpcb.view, hc.tSegq, hc.rcvNxt, hc.sackEnable, hc.tState] at h
        exact h
  | closed => trivial

/-- A segment that reaches its text is one whose head was trimmed and whose tail was,
and nothing else has happened to it or to the receive side. -/
theorem beforeText_ends {k : Kern} (hk : k.output.Keeps v) (seg : Segment) (sbCc : Nat) (tp : Tcpcb)
    (so : Socket) :
    Ends (fun c => c.tiflags.syn = false ∧ c.tp.view v = tp.view v ∧ ∃ c₀ c₁ : Ctx,
        (trimHead (arrival seg tp so)).Alike c₀ ∧ trimTail c₀ = .ok c₁ ∧ c₁.Kept v c)
      (Exit.After v seg.m.length tp) (beforeText k seg sbCc tp so) := by
  refine Ends.bind (P := fun c => (arrival seg tp so).Alike
    { c with tp := { c.tp with rcvWnd := rcvWindow c.tp c.so } }) ?_ fun c hc => ?_
  · have hin := received_alike k seg tp so
    refine ((headerPrediction_ends hk seg (tiwinOf seg tp) (received k seg tp so)).imp
      fun c hc => ?_).imp_exit fun e he => he.of_alike hin
    have h := hin.trans hc
    refine ⟨⟨h.th, h.tiflags, h.tlen, h.so, h.tSegq, h.rcvNxt, h.rcvAdv, ?_⟩, h.sackEnable, h.tState⟩
    simp only [rcvWindow, arrival, h.rcvNxt, h.rcvAdv, h.so]
  have hview : ∀ {c : Ctx}, (arrival seg tp so).Alike c → c.tp.view v = tp.view v := fun h => h.view
  refine Ends.imp_exit (E := Exit.View v (tp.view v)) ?_ fun e he => he.after
  refine Ends.bind (P := (arrival seg tp so).Alike)
    ((timeWaitReuse_ends seg _ _).imp fun c' h => hc.trans h) fun c hc => ?_
  refine Ends.bind (P := (arrival seg tp so).Alike)
    (hview hc ▸ (pawsCheck_ends k seg c).imp fun c' h => hc.trans h) fun c hc => ?_
  refine Ends.bind (P := (trimHead (arrival seg tp so)).Alike)
    ((afterClose_ends _ _).imp fun c' h => hc.trimHead.trans h) fun c₀ h₀ => ?_
  have hv₀ : c₀.tp.view v = tp.view v := h₀.view.trans (trimHead_view _)
  have htail := trimTail_view (v := v) c₀
  cases hc₁ : trimTail c₀ with
  | error e =>
      rw [hc₁, hv₀] at htail
      exact htail
  | ok c₁ =>
      rw [hc₁] at htail
      have hflags := flagStages_kept hk seg sbCc (tiwinOf seg tp) c₁
      rw [htail, hv₀] at hflags
      exact hflags.imp fun c h => ⟨h.2, h.1.view.trans (htail.trans hv₀), c₀, c₁, h₀, hc₁, h.1⟩

end View

end Obsd.Tcp
