import Mathlib
import Obsd.TcpSackCover

/-!
# The holes of a connection and what its peer has reported

The blocks a peer has reported since the holes were last empty, kept beside
the connection from segment to segment (`scoreStep`), and the claim that
the holes are their complement (`Complement`). It holds in every run in
which no new hole begins among reported bytes, and in which a segment that
deletes holes also has its acknowledgment taken (`FreshGuard`).
-/

namespace Obsd.Tcp

/-! ## Options and segments -/

/-- The blocks as they are taken in, each with the score it finds, and the score in
the end. -/
def scoreBlocks (thAck : Seq) : Scored → List Sackblk → List (Scored × Sackblk) × Scored
  | s, [] => ([], s)
  | s, sack :: rest =>
    match sackBlock thAck s.tp [] sack with
    | .next tp _ =>
      let (visits, s') := scoreBlocks thAck ⟨tp, s.report sack⟩ rest
      ((s, sack) :: visits, s')
    | _ => ([(s, sack)], s)

/-- An option that `tcp_sack_option` looks at. -/
def LooksAt (tp : Tcpcb) (th : Tcphdr) (cp : List UInt8) : Prop :=
  tp.sackEnable = true ∧ th.thFlags.ack = true ∧ seqLt th.thAck tp.sndUna = false
    ∧ seqGt th.thAck tp.sndMax = false ∧ 2 < cp.length ∧ (cp.length - 2) % 8 = 0

instance (tp : Tcpcb) (th : Tcphdr) (cp : List UInt8) : Decidable (LooksAt tp th cp) := by
  unfold LooksAt; infer_instance

def scoreOptions (th : Tcphdr) : Scored → List (List UInt8) → List (Scored × Sackblk) × Scored
  | s, [] => ([], s)
  | s, cp :: rest =>
    if LooksAt s.tp th cp then
      let (visits, s) := scoreBlocks th.thAck s (sackBlocks (cp.drop 2))
      let (visits', s) := scoreOptions th s rest
      (visits ++ visits', s)
    else scoreOptions th s rest

/-- The score a segment's options find: the acknowledged holes are gone, and with
the last hole the blocks are forgotten. -/
def Scored.delete (s : Scored) (th : Tcphdr) : Scored :=
  let tp := tcpDelSackholes s.tp th
  ⟨tp, if tp.sndHoles = [] then [] else s.reported⟩

inductive ScoreAct where
  | segment (th : Tcphdr) (opts : List (List UInt8)) (accept : Bool)
  | rexmit (len : Nat)
  | send (x : Seq)
deriving DecidableEq, Repr

/-- The action of the connection; `pool_get` succeeds. -/
def ScoreAct.act : ScoreAct → SackAct
  | .segment th opts accept => .segment th (opts.map fun cp => (cp, [])) accept
  | .rexmit len => .rexmit len
  | .send x => .send x

def ScoreAct.reported (s : Scored) : ScoreAct → List Sackblk
  | .segment th opts _ => (scoreOptions th (s.delete th) opts).2.reported
  | .rexmit _ => s.reported
  | .send _ => s.reported

/-- One step of the connection, with the blocks reported so far kept beside it. -/
def scoreStep (s : Scored) (a : ScoreAct) : Option Scored :=
  (sackStep s.tp a.act).map fun tp =>
    ⟨tp, (a.reported s).filter fun b => seqGt b.end_ tp.sndUna⟩

/-! ## The claim about a state, and the conditions on a step -/

def Sackhole.covers (h : Sackhole) (x : Seq) : Prop :=
  seqLeq h.start x = true ∧ seqLt x h.end_ = true

def Sackblk.covers (b : Sackblk) (x : Seq) : Prop :=
  seqLeq b.start x = true ∧ seqLt x b.end_ = true

/-- The holes cover exactly what is not reported from `snd_una` up to
`rcv_lastsack`, and everything that is not reported below the highest end. -/
structure Complement (s : Scored) : Prop where
  exact_ : ∀ x, (∃ h ∈ s.tp.sndHoles, h.covers x) ↔
    seqLeq s.tp.sndUna x = true ∧ seqLt x s.tp.rcvLastsack = true ∧ ∀ b ∈ s.reported, ¬ b.covers x
  below : ∀ b ∈ s.reported, ∀ x, seqLeq s.tp.sndUna x = true → seqLt x b.end_ = true →
    (∀ b ∈ s.reported, ¬ b.covers x) → ∃ h ∈ s.tp.sndHoles, h.covers x

/-- A valid block: not empty, and between the acknowledgment and `snd_max`. -/
def Sackblk.Valid (thAck sndMax : Seq) (b : Sackblk) : Prop :=
  seqLt b.start b.end_ = true ∧ seqGt b.start thAck = true ∧ seqGt b.end_ thAck = true
    ∧ seqLeq b.end_ sndMax = true

/-- A block in front of which a new hole begins finds no reported block that ends
beyond `rcv_lastsack`. -/
def Sackblk.Fresh (s : Scored) (b : Sackblk) : Prop :=
  s.tp.sndHoles ≠ [] → seqLt s.tp.rcvLastsack b.start = true →
    ∀ b' ∈ s.reported, seqLeq b'.end_ s.tp.rcvLastsack = true

instance (thAck sndMax : Seq) (b : Sackblk) : Decidable (b.Valid thAck sndMax) := by
  unfold Sackblk.Valid; infer_instance

instance (s : Scored) (b : Sackblk) : Decidable (b.Fresh s) := by
  unfold Sackblk.Fresh; infer_instance

/-- All blocks are valid, and what is outstanding stays below `2^30`. -/
def ValidGuard (s : Scored) : ScoreAct → Prop
  | .segment th opts _ =>
    ∀ v ∈ (scoreOptions th (s.delete th) opts).1, v.2.Valid th.thAck v.1.tp.sndMax
  | .rexmit _ => True
  | .send x => (x - s.tp.sndUna).toNat < 2 ^ 30

instance (s : Scored) (a : ScoreAct) : Decidable (ValidGuard s a) := by
  cases a <;> (unfold ValidGuard; infer_instance)

/-- In addition a segment ahead of `snd_una` has its acknowledgment taken, and the
blocks are fresh. -/
def FreshGuard (s : Scored) (a : ScoreAct) : Prop :=
  ValidGuard s a ∧
    match a with
    | .segment th opts accept =>
      (seqGt th.thAck s.tp.sndUna = true →
        accept = true ∧ th.thFlags.ack = true ∧ seqLeq th.thAck s.tp.sndMax = true)
      ∧ ∀ v ∈ (scoreOptions th (s.delete th) opts).1, v.2.Fresh v.1
    | _ => True

instance (s : Scored) (a : ScoreAct) : Decidable (FreshGuard s a) := by
  cases a <;> (unfold FreshGuard; infer_instance)

/-! ## Blocks and options keep the score -/

section Options

variable {thAck : Seq} {lo : Int}

theorem Sackblk.Valid.between {una sndMax : Seq} {b : Sackblk} (hlo : off una thAck = lo)
    (h0 : 0 ≤ lo) (hle : lo ≤ off una sndMax) (hmax : off una sndMax < 2 ^ 30)
    (h : b.Valid thAck sndMax) :
    lo < off una b.start ∧ off una b.start < off una b.end_ ∧ off una b.end_ ≤ off una sndMax := by
  obtain ⟨h1, h2, h3, h4⟩ := h
  have hs := off_bounds una b.start
  have he := off_bounds una b.end_
  simp only [seqLt, seqGt, seqLeq, decide_eq_true_eq, toInt_sub_bmod una, hlo, Int.bmod_def]
    at h1 h2 h3 h4
  split_ifs at h1 h2 h3 h4 <;> omega

theorem Sackblk.Fresh.off {s : Scored} {b : Sackblk} (h : SackInv lo s.tp) (hs : ScoreInv lo s)
    (hb : lo < off s.tp.sndUna b.start) (hb' : off s.tp.sndUna b.start < 2 ^ 30)
    (hfresh : b.Fresh s) (hne : s.tp.sndHoles ≠ [])
    (hbeyond : off s.tp.sndUna s.tp.rcvLastsack < off s.tp.sndUna b.start) :
    ∀ b' ∈ s.reported, off s.tp.sndUna b'.end_ ≤ off s.tp.sndUna s.tp.rcvLastsack := by
  have h0 := h.loNonneg
  have hmax := h.maxHi
  obtain ⟨hlast, hlastLe, -⟩ := hs.top (hs.some hne)
  intro b' hmem
  obtain ⟨-, -, hpos, hle⟩ := hs.blk b' hmem
  have hseq := hfresh hne (by
    rw [seqLt_off s.tp.sndUna ⟨by omega, by omega⟩]
    exact decide_eq_true hbeyond) b' hmem
  rw [seqLeq_off s.tp.sndUna ⟨by omega, by omega⟩] at hseq
  exact of_decide_eq_true hseq

theorem blockOk_of_between {tp : Tcpcb} {b : Sackblk} (h : SackInv lo tp)
    (hlo : off tp.sndUna thAck = lo) (hstart : lo < off tp.sndUna b.start)
    (hlt : off tp.sndUna b.start < 2 ^ 30) : BlockOk thAck tp b := by
  have h0 := h.loNonneg
  have hback : seqLt b.start tp.sndUna = false := by
    rw [seqLt_off tp.sndUna (by rw [off_self]; exact ⟨by omega, by omega⟩), off_self]
    exact decide_eq_false (by omega)
  intro _
  split
  · refine ⟨hback, ?_⟩
    rw [seqGt_off tp.sndUna ⟨by omega, by omega⟩]
    exact decide_eq_true (by omega)
  · exact .inl hback

/-- What the blocks of an option lead to, and that the loop of the source leads to
the same. By induction on the blocks. -/
theorem scoreBlocks_ok :
    ∀ (blocks : List Sackblk) {s : Scored}, SackInv lo s.tp → ScoreInv lo s →
      off s.tp.sndUna thAck = lo → lo ≤ off s.tp.sndUna s.tp.sndMax →
      (∀ v ∈ (scoreBlocks thAck s blocks).1, v.2.Valid thAck v.1.tp.sndMax ∧ v.2.Fresh v.1) →
      sackLoop thAck s.tp [] blocks = .done (scoreBlocks thAck s blocks).2.tp ∧
        SackInv lo (scoreBlocks thAck s blocks).2.tp ∧ ScoreInv lo (scoreBlocks thAck s blocks).2 ∧
        ∃ holes n last, (scoreBlocks thAck s blocks).2.tp =
          { s.tp with sndHoles := holes, sndNumholes := n, rcvLastsack := last }
  | [], s, h, hs, _, _, _ => ⟨rfl, h, hs, _, _, _, rfl⟩
  | sack :: rest, s, h, hs, hlo, hle, hall => by
      have hmax := h.maxHi
      rw [scoreBlocks] at hall ⊢
      have hvisit : sack.Valid thAck s.tp.sndMax ∧ sack.Fresh s := by
        split at hall
        · exact hall (s, sack) List.mem_cons_self
        · exact hall (s, sack) List.mem_cons_self
      obtain ⟨hstart, horder, hend⟩ := hvisit.1.between hlo h.loNonneg hle hmax
      obtain ⟨holes, n, last, hblock, hscore⟩ := sackBlock_score h hs hlo hstart horder hend
        (hvisit.2.off h hs hstart (by omega))
      have hok := sackBlock_ok h [] hlo (blockOk_of_between h hlo hstart (by omega))
      rw [sackLoop]
      rw [hblock] at hall hok ⊢
      obtain ⟨hinv, -⟩ := hok
      obtain ⟨hloop, hinv', hscore', holes', n', last', heq⟩ := scoreBlocks_ok rest
        (s := ⟨{ s.tp with sndHoles := holes, sndNumholes := n, rcvLastsack := last },
          s.report sack⟩) hinv hscore hlo hle (fun v hv => hall v (List.mem_cons_of_mem _ hv))
      exact ⟨hloop, hinv', hscore', holes', n', last', heq⟩

/-- An option that is not looked at changes nothing. -/
theorem tcpSackOption_ignored {tp : Tcpcb} {th : Tcphdr} {cp : List UInt8}
    (h : ¬ LooksAt tp th cp) (pools : List Bool) : tcpSackOption tp th cp pools = .done tp := by
  unfold tcpSackOption
  split_ifs with h1 h2 h3
  · rfl
  · rfl
  · rfl
  all_goals
    refine absurd ?_ h
    simp only [Bool.or_eq_true, Bool.not_eq_true', not_or, Bool.not_eq_false, Bool.not_eq_true,
      not_le, not_not, ne_eq] at h1 h2 h3
    exact ⟨h1.1, h1.2, h2.1, h2.2, h3.1, h3.2⟩

theorem tcpSackOption_looked {tp : Tcpcb} {th : Tcphdr} {cp : List UInt8} (h : LooksAt tp th cp)
    (hnum : 0 ≤ tp.sndNumholes) (pools : List Bool) :
    tcpSackOption tp th cp pools =
      if tp.tMaxseg = 0 then .panic else sackLoop th.thAck tp pools (sackBlocks (cp.drop 2)) := by
  obtain ⟨h1, h2, h3, h4, h5, h6⟩ := h
  unfold tcpSackOption
  rw [if_neg (by simp [h1, h2]), if_neg (by simp [h3, h4]), if_neg (by omega),
    if_neg (Int.not_lt.mpr hnum)]

/-- What the options of a segment lead to, when the source gets through them. -/
theorem scoreOptions_ok {th : Tcphdr} :
    ∀ (opts : List (List UInt8)) {s : Scored} {tp' : Tcpcb}, SackInv lo s.tp → ScoreInv lo s →
      (seqGt th.thAck s.tp.sndMax = false → seqLt th.thAck s.tp.sndUna = false →
        off s.tp.sndUna th.thAck = lo ∧ lo ≤ off s.tp.sndUna s.tp.sndMax) →
      (∀ v ∈ (scoreOptions th s opts).1, v.2.Valid th.thAck v.1.tp.sndMax ∧ v.2.Fresh v.1) →
      sackOptions th s.tp (opts.map fun cp => (cp, [])) = some tp' →
      tp' = (scoreOptions th s opts).2.tp ∧ SackInv lo tp' ∧
        ScoreInv lo (scoreOptions th s opts).2 ∧
        ∃ holes n last, tp' =
          { s.tp with sndHoles := holes, sndNumholes := n, rcvLastsack := last }
  | [], s, tp', h, hs, _, _, heq => by
      obtain rfl : s.tp = tp' := Option.some.inj heq
      exact ⟨rfl, h, hs, _, _, _, rfl⟩
  | cp :: rest, s, tp', h, hs, hlo, hall, heq => by
      rw [scoreOptions] at hall ⊢
      rw [List.map_cons, sackOptions] at heq
      by_cases hlook : LooksAt s.tp th cp
      · rw [if_pos hlook] at hall ⊢
        obtain ⟨hlo', hle⟩ := hlo hlook.2.2.2.1 hlook.2.2.1
        obtain ⟨hloop, hinv, hscore, holes, n, last, hframe⟩ := scoreBlocks_ok
          (sackBlocks (cp.drop 2)) h hs hlo' hle (fun v hv => hall v (List.mem_append_left _ hv))
        have hnum : 0 ≤ s.tp.sndNumholes := by
          rw [h.count]
          omega
        rw [tcpSackOption_looked hlook hnum, hloop] at heq
        by_cases hseg : s.tp.tMaxseg = 0
        · rw [if_pos hseg] at heq
          cases heq
        · rw [if_neg hseg] at heq
          obtain ⟨h1, h2, h3, holes', n', last', h4⟩ := scoreOptions_ok rest hinv hscore
            (by rw [hframe]; exact hlo) (fun v hv => hall v (List.mem_append_right _ hv)) heq
          exact ⟨h1, h2, h3, holes', n', last', by rw [h4, hframe]⟩
      · rw [if_neg hlook] at hall ⊢
        rw [tcpSackOption_ignored hlook] at heq
        exact scoreOptions_ok rest h hs hlo hall heq

end Options

/-! ## Acknowledged holes -/

/-- The positions before the acknowledgment are taken out of the holes. -/
theorem delHoles_cover {una : Seq} (lastack : Seq) {lo hi : Int} (hlo : 0 ≤ lo)
    (hla : 0 ≤ off una lastack) (hhi : hi ≤ 2 ^ 30) (d : Int) :
    ∀ (holes : List Sackhole) (n : Int), HolesCut una lo hi [] holes →
      (InHoles una (delHoles lastack n holes).2 d ↔ InHoles una holes d ∧ off una lastack ≤ d)
  | [], n, _ => by simp [delHoles]
  | cur :: next, n, h => by
      obtain ⟨c1, c2, c3, c4, c5⟩ := h.after_each cur (by simp)
      have hl := off_bounds una lastack
      have hbehind : ∀ b ∈ next, off una cur.end_ < off una b.start := h.after_first
      have hlater : off una lastack ≤ off una cur.end_ → InHoles una next d →
          off una lastack ≤ d := by
        rintro hle ⟨b, hb, hd⟩
        have := hbehind b hb
        omega
      rw [delHoles, seqLeq_off una ⟨by omega, by omega⟩, seqLt_off una ⟨by omega, by omega⟩,
        seqLt_off una ⟨by omega, by omega⟩]
      split
      · rename_i hend
        simp only [decide_eq_true_eq] at hend
        rw [delHoles_cover lastack hlo hla hhi d next (n - 1) h.drop, inHoles_cons]
        constructor
        · exact And.imp_left .inr
        · rintro ⟨h1 | h1, h2⟩
          · omega
          · exact ⟨h1, h2⟩
      · rename_i hend
        simp only [decide_eq_true_eq, not_le] at hend
        split
        · rename_i hstart
          simp only [decide_eq_true_eq] at hstart
          rw [inHoles_cons, inHoles_cons]
          dsimp only
          constructor
          · rintro (h1 | h1)
            · exact ⟨.inl ⟨by omega, h1.2⟩, h1.1⟩
            · exact ⟨.inr h1, hlater hend.le h1⟩
          · rintro ⟨h1 | h1, h2⟩
            · exact .inl ⟨h2, h1.2⟩
            · exact .inr h1
        · rename_i hstart
          simp only [decide_eq_true_eq, not_lt] at hstart
          rw [inHoles_cons]
          refine ⟨fun h1 => ⟨h1, ?_⟩, And.left⟩
          obtain h1 | h1 := h1
          · omega
          · exact hlater hend.le h1

theorem inHoles_of_mem {una : Seq} {lo hi : Int} {holes : List Sackhole} {h : Sackhole}
    (hmem : h ∈ holes) (hin : HoleIn una lo hi h) : InHoles una holes (off una h.start) :=
  ⟨h, hmem, le_refl _, hin.nonempty⟩

/-- With nothing reported there is nothing to say. -/
theorem score_empty (lo : Int) (una max last : Seq) : Score lo una max last [] [] where
  some h := absurd rfl h
  blk _ hb := nomatch hb
  reach _ hb := nomatch hb
  top h := absurd rfl h
  cover h := absurd rfl h

/-- Deleting the acknowledged holes keeps the score, from the acknowledgment on. -/
theorem Scored.delete_score {s : Scored} (th : Tcphdr) (h : SackSysInv s.tp) (hs : ScoreInv 0 s) :
    ScoreInv (max 0 (off s.tp.sndUna th.thAck)) (s.delete th) := by
  obtain ⟨hinv, holes, n, heq, -⟩ := tcpDelSackholes_ok th h.holes h.state h.disabled
  obtain ⟨hu, hm, hl⟩ : (tcpDelSackholes s.tp th).sndUna = s.tp.sndUna ∧
      (tcpDelSackholes s.tp th).sndMax = s.tp.sndMax ∧
      (tcpDelSackholes s.tp th).rcvLastsack = s.tp.rcvLastsack := by
    rw [heq]
    exact ⟨rfl, rfl, rfl⟩
  show Score _ (tcpDelSackholes s.tp th).sndUna (tcpDelSackholes s.tp th).sndMax
    (tcpDelSackholes s.tp th).rcvLastsack (tcpDelSackholes s.tp th).sndHoles
    (if (tcpDelSackholes s.tp th).sndHoles = [] then [] else s.reported)
  by_cases hnil : (tcpDelSackholes s.tp th).sndHoles = []
  · rw [if_pos hnil, hnil]
    exact score_empty _ _ _ _
  rw [if_neg hnil, hu, hm, hl]
  have hmax := h.holes.maxHi
  have hA := off_bounds s.tp.sndUna th.thAck
  -- the acknowledgment the holes are cut at
  have hcover : ∀ d, InHoles s.tp.sndUna (tcpDelSackholes s.tp th).sndHoles d ↔
      InHoles s.tp.sndUna s.tp.sndHoles d ∧ max 0 (off s.tp.sndUna th.thAck) ≤ d := by
    intro d
    rw [tcpDelSackholes] at hnil ⊢
    split
    · rename_i hen
      rw [if_pos hen] at hnil
      dsimp only at hnil ⊢
      have hla : off s.tp.sndUna (if seqGt th.thAck s.tp.sndUna then th.thAck else s.tp.sndUna) =
          max 0 (off s.tp.sndUna th.thAck) := by
        rw [seqGt_off s.tp.sndUna (by rw [off_self]; exact ⟨by omega, by omega⟩), off_self]
        split <;> rename_i hc <;> simp only [decide_eq_true_eq] at hc
        · omega
        · rw [off_self]
          omega
      have hne : s.tp.sndHoles ≠ [] := by
        intro hno
        rw [hno, delHoles] at hnil
        exact hnil rfl
      have hlast := h.holes.lastLe hne
      rw [delHoles_cover _ (le_refl 0) (by omega) (by omega) d s.tp.sndHoles s.tp.sndNumholes
        h.holes.cut, hla]
    · rename_i hen
      rw [if_neg hen] at hnil
      exact absurd (h.disabled (by
        by_contra hc
        exact hen ⟨by simpa using hc, h.state⟩)) hnil
  obtain ⟨h₀, rest, hcons⟩ := List.exists_cons_of_ne_nil hnil
  have hmem : h₀ ∈ (tcpDelSackholes s.tp th).sndHoles := by rw [hcons]; exact List.mem_cons_self
  have hin : HoleIn s.tp.sndUna (max 0 (off s.tp.sndUna th.thAck))
      (off s.tp.sndUna s.tp.rcvLastsack) h₀ := by
    have hin := hinv.cut.after_each h₀ hmem
    rwa [hu, hl] at hin
  have hlastLe : off s.tp.sndUna s.tp.rcvLastsack ≤ off s.tp.sndUna s.tp.sndMax := by
    have hlastLe := hinv.lastLe hnil
    rwa [hu, hl, hm] at hlastLe
  have hne : s.tp.sndHoles ≠ [] := by
    obtain ⟨⟨h', hmem', -⟩, -⟩ := (hcover _).mp (inHoles_of_mem hmem hin)
    exact List.ne_nil_of_mem hmem'
  have hsome := hs.some hne
  obtain ⟨-, -, hb₀⟩ := hs.top hsome
  refine ⟨fun _ => hsome, hs.blk, hs.reach, fun _ => ⟨?_, hlastLe, hb₀⟩, fun _ d => ?_⟩
  · have h1 := hin.lo
    have h2 := hin.nonempty
    have h3 := hin.hi
    omega
  · rw [hcover, hs.cover hsome]
    constructor
    · rintro ⟨⟨-, h1, h2⟩, h3⟩
      exact ⟨h3, h1, h2⟩
    · rintro ⟨h1, h2, h3⟩
      exact ⟨⟨by omega, h2, h3⟩, h1⟩

/-- Reported blocks that are not yet acknowledged stay. -/
theorem filter_reported {lo : Int} {una max last : Seq} {holes : List Sackhole}
    {reported : List Sackblk} (hs : Score lo una max last holes reported)
    (hmax : off una max < 2 ^ 30) : (reported.filter fun b => seqGt b.end_ una) = reported := by
  rw [List.filter_eq_self]
  intro b hb
  obtain ⟨-, -, hpos, hle⟩ := hs.blk b hb
  exact decide_eq_true hpos

/-- The acknowledgment is taken: distances count from it now. -/
theorem Score.advance {una max last x : Seq} {holes : List Sackhole} {n : Int}
    {reported : List Sackblk} (h : HolesInv (off una x) una max last holes n)
    (hs : Score (off una x) una max last holes reported) (hle : off una x ≤ off una max) :
    Score 0 x max last holes (reported.filter fun b => seqGt b.end_ x) := by
  have h0 := h.loNonneg
  have hmax := h.maxHi
  have hmove : ∀ y : Seq, -2 ^ 30 ≤ off una y → off una y ≤ 2 ^ 30 →
      off x y = off una y - off una x := fun y h1 h2 =>
    toInt_sub_off una ⟨by omega, by omega⟩
  have hM := hmove max (by omega) (by omega)
  have hblk : ∀ b ∈ reported, off x b.start = off una b.start - off una x ∧
      off x b.end_ = off una b.end_ - off una x := fun b hb => by
    obtain ⟨h1, h2, h3, h4⟩ := hs.blk b hb
    exact ⟨hmove b.start (by omega) (by omega), hmove b.end_ (by omega) (by omega)⟩
  have hkeep : ∀ b ∈ reported, (seqGt b.end_ x = true ↔ off una x < off una b.end_) :=
    fun b hb => by
      obtain ⟨h1, h2, h3, h4⟩ := hs.blk b hb
      rw [seqGt_off una ⟨by omega, by omega⟩, decide_eq_true_eq]
  have hL : reported ≠ [] → off x last = off una last - off una x := fun hne => by
    obtain ⟨h1, h2, -⟩ := hs.top hne
    exact hmove last (by omega) (by omega)
  have hne : ∀ {b}, b ∈ (reported.filter fun b => seqGt b.end_ x) → reported ≠ [] :=
    fun hb => List.ne_nil_of_mem (List.mem_filter.mp hb).1
  have hne' : (reported.filter fun b => seqGt b.end_ x) ≠ [] → reported ≠ [] := fun hf hnil => by
    rw [hnil] at hf
    exact hf rfl
  refine ⟨fun hholes => ?_, fun b hb => ?_, fun b hb => ?_, fun hf => ?_, fun hf d => ?_⟩
  · obtain ⟨h1, -, b, hb, hlast⟩ := hs.top (hs.some hholes)
    exact List.ne_nil_of_mem (List.mem_filter.mpr ⟨hb, (hkeep b hb).mpr (hlast ▸ h1)⟩)
  · obtain ⟨hb, hgt⟩ := List.mem_filter.mp hb
    obtain ⟨h1, h2, h3, h4⟩ := hs.blk b hb
    obtain ⟨hbs, hbe⟩ := hblk b hb
    have := (hkeep b hb).mp hgt
    omega
  · obtain ⟨hmem, -⟩ := List.mem_filter.mp hb
    have h1 := hs.reach b hmem
    have h2 := (hblk b hmem).1
    have h3 := hL (hne hb)
    omega
  · obtain ⟨h1, h2, b, hb, hlast⟩ := hs.top (hne' hf)
    have h3 := hL (hne' hf)
    exact ⟨by omega, by omega, b,
      List.mem_filter.mpr ⟨hb, (hkeep b hb).mpr (hlast ▸ h1)⟩, hlast⟩
  · have hholes : InHoles x holes d ↔ InHoles una holes (d + off una x) := by
      refine exists_congr fun a => and_congr_right fun ha => ?_
      have hlast := h.lastLe (List.ne_nil_of_mem ha)
      obtain ⟨c1, c2, c3, c4, c5⟩ := h.cut.after_each a ha
      rw [hmove a.start (by omega) (by omega), hmove a.end_ (by omega) (by omega)]
      omega
    have h3 := hL (hne' hf)
    rw [hholes, hs.cover (hne' hf)]
    constructor
    · rintro ⟨h1, h2, hno⟩
      refine ⟨by omega, by omega, fun b hb hin => hno b (List.mem_filter.mp hb).1 ?_⟩
      obtain ⟨hbs, hbe⟩ := hblk b (List.mem_filter.mp hb).1
      unfold InBlk at hin ⊢
      omega
    · rintro ⟨h1, h2, hno⟩
      refine ⟨by omega, by omega, fun b hb hin => ?_⟩
      obtain ⟨hbs, hbe⟩ := hblk b hb
      unfold InBlk at hin hno
      refine hno b (List.mem_filter.mpr ⟨hb, (hkeep b hb).mpr (by omega)⟩) ?_
      omega

/-! ## Steps and runs -/

theorem scoreOptions_disabled {th : Tcphdr} (opts : List (List UInt8)) {s : Scored}
    (h : s.tp.sackEnable = false) : (scoreOptions th s opts).2 = s := by
  induction opts with
  | nil => rfl
  | cons cp rest ih =>
    have hno : ¬ LooksAt s.tp th cp := fun hlook => by
      rw [hlook.1] at h
      cases h
    rw [scoreOptions, if_neg hno]
    exact ih

/-- A larger `snd_max` changes nothing below it. -/
theorem Score.grow {lo : Int} {una max max' last : Seq} {holes : List Sackhole}
    {reported : List Sackblk} (hs : Score lo una max last holes reported)
    (hle : off una max ≤ off una max') : Score lo una max' last holes reported where
  some := hs.some
  blk b hb := by
    obtain ⟨h1, h2, h3, h4⟩ := hs.blk b hb
    exact ⟨h1, h2, h3, h4.trans hle⟩
  reach := hs.reach
  top hne := by
    obtain ⟨h1, h2, h3⟩ := hs.top hne
    exact ⟨h1, h2.trans hle, h3⟩
  cover := hs.cover

/-- A retransmission does not move the ends of its hole. -/
theorem Score.rexmit {lo : Int} {una max last x : Seq} {before next : List Sackhole} {p : Sackhole}
    {reported : List Sackblk} (hs : Score lo una max last (before.reverse ++ p :: next) reported) :
    Score lo una max last (before.reverse ++ { p with rxmit := x } :: next) reported where
  some _ := hs.some (by simp)
  blk := hs.blk
  reach := hs.reach
  top := hs.top
  cover hne d := by
    rw [← hs.cover hne, inHoles_append, inHoles_append, inHoles_cons, inHoles_cons]

theorem segment_score {s s' : Scored} {th : Tcphdr} {opts : List (List UInt8)} {accept : Bool}
    (hg : FreshGuard s (.segment th opts accept))
    (hst : scoreStep s (.segment th opts accept) = some s') (h : SackSysInv s.tp)
    (hs : ScoreInv 0 s) : SackSysInv s'.tp ∧ ScoreInv 0 s' := by
  obtain ⟨hvalid, htaken, hfresh⟩ := hg
  have hmax := h.holes.maxHi
  have hmax' := h.holes.maxLo
  have hA := off_bounds s.tp.sndUna th.thAck
  have hnear0 : Near (off s.tp.sndUna th.thAck) (off s.tp.sndUna s.tp.sndUna) := by
    rw [off_self]; exact ⟨by omega, by omega⟩
  obtain ⟨hdel, holes, n, hdeq, hdis⟩ := tcpDelSackholes_ok th h.holes h.state h.disabled
  have hscore := s.delete_score th h hs
  obtain ⟨tp', hstep, rfl⟩ := Option.map_eq_some_iff.mp hst
  obtain ⟨tp₁, hopts, rfl⟩ := Option.map_eq_some_iff.mp hstep
  have hlo : seqGt th.thAck (s.delete th).tp.sndMax = false →
      seqLt th.thAck (s.delete th).tp.sndUna = false →
      off (s.delete th).tp.sndUna th.thAck = max 0 (off s.tp.sndUna th.thAck) ∧
        max 0 (off s.tp.sndUna th.thAck) ≤
          off (s.delete th).tp.sndUna (s.delete th).tp.sndMax := by
    show seqGt th.thAck (tcpDelSackholes s.tp th).sndMax = false →
      seqLt th.thAck (tcpDelSackholes s.tp th).sndUna = false →
      off (tcpDelSackholes s.tp th).sndUna th.thAck = _ ∧
        _ ≤ off (tcpDelSackholes s.tp th).sndUna (tcpDelSackholes s.tp th).sndMax
    rw [hdeq]
    intro hgt hlt
    rw [seqLt_off s.tp.sndUna hnear0, off_self, decide_eq_false_iff_not] at hlt
    rw [seqGt_off s.tp.sndUna ⟨by dsimp only; omega, by dsimp only; omega⟩,
      decide_eq_false_iff_not] at hgt
    dsimp only at hgt ⊢
    omega
  obtain ⟨heq, hinv, hscore', holes', n', last', hframe⟩ := scoreOptions_ok opts hdel hscore hlo
    (fun v hv => ⟨hvalid v hv, hfresh v hv⟩) hopts
  have htp : ∃ holes n last, tp₁ =
      { s.tp with sndHoles := holes, sndNumholes := n, rcvLastsack := last } :=
    ⟨holes', n', last', by
      rw [hframe]
      show { tcpDelSackholes s.tp th with
        sndHoles := holes', sndNumholes := n', rcvLastsack := last' } = _
      rw [hdeq]⟩
  have hoff : tp₁.sackEnable = false → tp₁.sndHoles = [] := by
    intro he
    have he' : (s.delete th).tp.sackEnable = false := by
      rw [hframe] at he
      exact he
    rw [heq, scoreOptions_disabled opts he']
    show (tcpDelSackholes s.tp th).sndHoles = []
    have : (tcpDelSackholes s.tp th).sackEnable = false := he'
    rw [hdeq] at this ⊢
    exact hdis this
  have hscore₁ : Score (max 0 (off s.tp.sndUna th.thAck)) tp₁.sndUna tp₁.sndMax tp₁.rcvLastsack
      tp₁.sndHoles (scoreOptions th (s.delete th) opts).2.reported := by
    rw [heq]
    exact hscore'
  obtain ⟨holes'', n'', last'', htp⟩ := htp
  have hu : tp₁.sndUna = s.tp.sndUna := by rw [htp]
  have hm : tp₁.sndMax = s.tp.sndMax := by rw [htp]
  have hstate : tp₁.tState ≠ .listen := by rw [htp]; exact h.state
  dsimp only [ScoreAct.reported]
  split
  · -- the acknowledgment is taken
    rename_i hacc
    simp only [Bool.and_eq_true] at hacc
    obtain ⟨⟨-, hgt⟩, hle⟩ := hacc
    rw [hu, seqGt_off s.tp.sndUna hnear0, off_self, decide_eq_true_eq] at hgt
    rw [hm, seqLeq_off s.tp.sndUna ⟨by omega, by omega⟩, decide_eq_true_eq] at hle
    have hmx : max 0 (off s.tp.sndUna th.thAck) = off tp₁.sndUna th.thAck := by rw [hu]; omega
    rw [hmx] at hinv hscore₁
    have hle' : off tp₁.sndUna th.thAck ≤ off tp₁.sndUna tp₁.sndMax := by rwa [hu, hm]
    exact ⟨⟨hinv.advance hle', hstate, hoff⟩, hscore₁.advance hinv hle'⟩
  · rename_i hacc
    have hback : ¬ 0 < off s.tp.sndUna th.thAck := by
      intro hpos
      have hgt : seqGt th.thAck s.tp.sndUna = true := by
        exact decide_eq_true hpos
      obtain ⟨h1, h2, h3⟩ := htaken hgt
      exact hacc (by rw [hu, hm, h1, h2, h3, hgt]; rfl)
    have hmx : max 0 (off s.tp.sndUna th.thAck) = 0 := by omega
    rw [hmx] at hinv hscore₁
    refine ⟨⟨hinv, hstate, hoff⟩, ?_⟩
    rw [filter_reported hscore₁ (by rw [hu, hm]; exact hmax)]
    exact hscore₁

/-- The invariant of a run: the holes are in order, and the score is right. -/
def ScoreSysInv (s : Scored) : Prop := SackSysInv s.tp ∧ ScoreInv 0 s

theorem scoreStep_inv {s s' : Scored} {a : ScoreAct} (hg : FreshGuard s a)
    (hst : scoreStep s a = some s') (h : ScoreSysInv s) : ScoreSysInv s' := by
  obtain ⟨hinv, hs⟩ := h
  have hmax := hinv.holes.maxHi
  cases a with
  | segment th opts accept => exact segment_score hg hst hinv hs
  | rexmit len =>
    obtain ⟨tp', hstep, rfl⟩ := Option.map_eq_some_iff.mp hst
    have hinv' : SackSysInv tp' := sackStep_inv (a := .rexmit len) trivial hstep hinv
    refine ⟨hinv', ?_⟩
    simp only [ScoreAct.act, sackStep] at hstep
    split at hstep
    · rename_i before p next hp
      split at hstep
      · obtain rfl := Option.some.inj hstep
        have heq : before.reverse ++ p :: next = s.tp.sndHoles := by
          simpa using tcpSackOutput_cut hp
        have hs' : Score 0 s.tp.sndUna s.tp.sndMax s.tp.rcvLastsack (before.reverse ++ p :: next)
            s.reported := by rwa [heq]
        dsimp only [ScoreAct.reported]
        rw [filter_reported hs' hmax]
        exact hs'.rexmit
      · cases hstep
    · cases hstep
  | send x =>
    obtain ⟨tp', hstep, rfl⟩ := Option.map_eq_some_iff.mp hst
    have hinv' : SackSysInv tp' := sackStep_inv (a := .send x) hg.1 hstep hinv
    refine ⟨hinv', ?_⟩
    simp only [ScoreAct.act, sackStep] at hstep
    split at hstep
    · rename_i hgt
      obtain rfl := Option.some.inj hstep
      have hmx := hinv'.holes.maxHi
      have hmx' := hinv'.holes.maxLo
      have hmax' := hinv.holes.maxLo
      dsimp only at hmx hmx'
      rw [seqGt_off s.tp.sndUna ⟨by omega, by omega⟩, decide_eq_true_eq] at hgt
      dsimp only [ScoreAct.reported]
      rw [filter_reported hs hmax]
      exact hs.grow hgt.le
    · cases hstep

/-- A stretch of less than half the space holds the positions between its ends. -/
theorem covers_off {una a b x : Seq} (ha : -2 ^ 30 ≤ off una a) (hab : off una a < off una b)
    (hb : off una b ≤ 2 ^ 30) :
    (seqLeq a x = true ∧ seqLt x b = true) ↔ off una a ≤ off una x ∧ off una x < off una b := by
  have hx := off_bounds una x
  simp only [seqLeq, seqLt, decide_eq_true_eq, toInt_sub_bmod una, Int.bmod_def]
  split_ifs <;> omega

/-- In offsets the holes are the complement, and so they are in sequence numbers. -/
theorem ScoreInv.complement {s : Scored} (h : SackInv 0 s.tp) (hs : ScoreInv 0 s)
    (hne : s.reported ≠ []) : Complement s := by
  have hmax := h.maxHi
  obtain ⟨hlast, hlastLe, -⟩ := hs.top hne
  have hhole : ∀ x, (∃ a ∈ s.tp.sndHoles, a.covers x) ↔
      InHoles s.tp.sndUna s.tp.sndHoles (off s.tp.sndUna x) := fun x =>
    exists_congr fun a => and_congr_right fun ha => by
      obtain ⟨c1, c2, c3, c4, c5⟩ := h.cut.after_each a ha
      exact covers_off (by omega) c2 (by omega)
  have hblk : ∀ b ∈ s.reported, ∀ x, b.covers x ↔ InBlk s.tp.sndUna b (off s.tp.sndUna x) :=
    fun b hb x => by
      obtain ⟨h1, h2, h3, h4⟩ := hs.blk b hb
      exact covers_off (by omega) h1 (by omega)
  have hno : ∀ x, (∀ b ∈ s.reported, ¬ b.covers x) ↔
      ∀ b ∈ s.reported, ¬ InBlk s.tp.sndUna b (off s.tp.sndUna x) := fun x =>
    forall₂_congr fun b hb => not_congr (hblk b hb x)
  have hself : off s.tp.sndUna s.tp.sndUna = 0 := off_self _
  have hrange : ∀ x, (seqLeq s.tp.sndUna x = true ∧ seqLt x s.tp.rcvLastsack = true) ↔
      0 ≤ off s.tp.sndUna x ∧ off s.tp.sndUna x < off s.tp.sndUna s.tp.rcvLastsack := fun x => by
    rw [@covers_off s.tp.sndUna _ _ _ (by omega) (by omega) (by omega), hself]
  refine ⟨fun x => ?_, fun b hb x hge hlt hnone => ?_⟩
  · rw [hhole, hs.cover hne, hno, ← and_assoc, ← and_assoc, hrange]
  · obtain ⟨h1, h2, h3, h4⟩ := hs.blk b hb
    obtain ⟨hx, hx'⟩ : 0 ≤ off s.tp.sndUna x ∧ off s.tp.sndUna x < off s.tp.sndUna b.end_ := by
      have := (@covers_off s.tp.sndUna _ _ _ (by omega) (by omega) (by omega)).mp ⟨hge, hlt⟩
      rwa [hself] at this
    have hnone' := (hno x).mp hnone
    -- beyond `rcv_lastsack` the block itself has reported it
    have hreach := hs.reach b hb
    have hin := hnone' b hb
    unfold InBlk at hin
    rw [hhole, hs.cover hne]
    exact ⟨hx, by omega, hnone'⟩

/-- In every run of segments with valid SACK blocks, acknowledgments, sends and
retransmissions that meets `FreshGuard`, from a connection with no holes: as
long as there are holes, and from the first block on, the holes are the
complement of what is reported. -/
theorem holes_complement {tp₀ : Tcpcb} {s : Scored} (hholes : tp₀.sndHoles = [])
    (hnum : tp₀.sndNumholes = 0) (hstate : tp₀.tState ≠ .listen)
    (hwin : (tp₀.sndMax - tp₀.sndUna).toNat < 2 ^ 30)
    (h : Runs scoreStep FreshGuard ⟨tp₀, []⟩ s) :
    (s.tp.sndHoles ≠ [] → s.reported ≠ []) ∧ (s.reported ≠ [] → Complement s) := by
  have hoff : off tp₀.sndUna tp₀.sndMax = (tp₀.sndMax - tp₀.sndUna).toNat :=
    BitVec.toInt_eq_toNat_of_lt (by omega)
  have hinit : SackSysInv tp₀ := by
    refine ⟨⟨Int.le_refl 0, by omega, by omega, ?_, fun hne => absurd hholes hne, ?_⟩, hstate,
      fun _ => hholes⟩
    · rw [hholes]; exact ⟨by simp, by simp⟩
    · rw [hholes, hnum]; rfl
  have hscore : ScoreInv 0 ⟨tp₀, []⟩ := by
    show Score 0 tp₀.sndUna tp₀.sndMax tp₀.rcvLastsack tp₀.sndHoles []
    rw [hholes]
    exact score_empty _ _ _ _
  obtain ⟨hinv, hs⟩ : ScoreSysInv s :=
    h.invariant (fun _ _ _ hg hst hi => scoreStep_inv hg hst hi) ⟨hinit, hscore⟩
  exact ⟨hs.some, fun hne => hs.complement hinv.holes hne⟩

/-! ## Two connections -/

/-- A segment that acknowledges `ack`, with one SACK option. -/
def sackSegment (ack : Seq) (blocks : List UInt8) : ScoreAct :=
  .segment ⟨0#32, ack, { ack := true }, 0⟩ [5 :: (UInt8.ofNat (blocks.length + 2)) :: blocks] true

/-- Two blocks and a third that joins them, a retransmission, and an acknowledgment
into the hole that is left. -/
def joinedActs : List ScoreAct :=
  [sackSegment 1000#32 [0, 0, 4, 76, 0, 0, 4, 176], sackSegment 1000#32 [0, 0, 5, 20, 0, 0, 5, 120],
   sackSegment 1000#32 [0, 0, 4, 126, 0, 0, 5, 70], .rexmit 50, sackSegment 1050#32 []]

theorem holes_complement_joined :
    ∃ s : Scored, Runs scoreStep FreshGuard ⟨outstanding 1000#32, []⟩ s
      ∧ s.tp.sndHoles = [⟨1050#32, 1100#32, 4, 1050#32⟩] ∧ s.tp.rcvLastsack = 1400#32
      ∧ Complement s := by
  have hok : ∀ s a, decide (FreshGuard s a) = true → FreshGuard s a := fun _ _ => of_decide_eq_true
  have hrun : Runs scoreStep FreshGuard ⟨outstanding 1000#32, []⟩
      ⟨{ outstanding 1000#32 with
        sndUna := 1050#32
        sndHoles := [⟨1050#32, 1100#32, 4, 1050#32⟩]
        sndNumholes := 1
        rcvLastsack := 1400#32 },
        [⟨1150#32, 1350#32⟩, ⟨1300#32, 1400#32⟩, ⟨1100#32, 1200#32⟩]⟩ :=
    Runs.of_exec hok joinedActs (by decide +kernel)
  exact ⟨_, hrun, rfl, rfl, (holes_complement rfl rfl (by decide) (by decide) hrun).2 (by simp)⟩

/-- A block right behind the first leaves `rcv_lastsack` where it was, and the next
block beyond makes a hole that begins with it. -/
theorem hole_among_reported :
    ∃ s : Scored, Runs scoreStep ValidGuard ⟨outstanding 1000#32, []⟩ s
      ∧ s.reported = [⟨1400#32, 1500#32⟩, ⟨1200#32, 1300#32⟩, ⟨1100#32, 1200#32⟩]
      ∧ (⟨1200#32, 1400#32, 1, 1200#32⟩ : Sackhole) ∈ s.tp.sndHoles ∧ ¬ Complement s := by
  have hok : ∀ s a, decide (ValidGuard s a) = true → ValidGuard s a := fun _ _ => of_decide_eq_true
  have hrun : Runs scoreStep ValidGuard ⟨outstanding 1000#32, []⟩
      ⟨{ outstanding 1000#32 with
        sndHoles := [⟨1000#32, 1100#32, 3, 1000#32⟩, ⟨1200#32, 1400#32, 1, 1200#32⟩]
        sndNumholes := 2
        rcvLastsack := 1500#32 },
        [⟨1400#32, 1500#32⟩, ⟨1200#32, 1300#32⟩, ⟨1100#32, 1200#32⟩]⟩ :=
    Runs.of_exec hok
      [sackSegment 1000#32 [0, 0, 4, 76, 0, 0, 4, 176],
       sackSegment 1000#32 [0, 0, 4, 176, 0, 0, 5, 20],
       sackSegment 1000#32 [0, 0, 5, 120, 0, 0, 5, 220]] (by decide +kernel)
  refine ⟨_, hrun, rfl, by simp, fun hc => ?_⟩
  have hin := ((hc.exact_ 1250#32).mp ⟨⟨1200#32, 1400#32, 1, 1200#32⟩, by simp, by decide,
    by decide⟩).2.2
  exact hin ⟨1200#32, 1300#32⟩ (by simp) ⟨by decide, by decide⟩

end Obsd.Tcp
