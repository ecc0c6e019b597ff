import Obsd.TcpSack

/-!
# What the holes cover

The walk of `tcp_sack_option` moves on in every round, whatever the fields
of the holes and of the block are: `SEQ_LT` and `SEQ_GT` are no order on
numbers half the space apart, but a block that ends behind where it begins
leaves no gap between the branches (`some_branch`).

The holes are meant to be the complement of what the peer has reported:
`Complement`. Each block that is taken out of the holes keeps that. A block
beyond `rcv_lastsack` gets a new hole before it, from `rcv_lastsack` on,
and `rcv_lastsack` is moved in that case only: a block that reaches over
`rcv_lastsack` leaves it behind, and the next hole begins among reported
bytes.
-/

namespace Obsd.Tcp

/-! ## The walk ends -/

/-- One of the branches of the walk is taken, for a block that is not empty. -/
theorem some_branch (sack : Sackblk) (cur : Sackhole) :
    (seqLeq sack.end_ sack.start || seqLeq sack.end_ cur.start || seqGeq sack.start cur.end_
      || seqLeq sack.start cur.start || seqGeq sack.end_ cur.end_
      || (seqLt cur.start sack.start && seqGt cur.end_ sack.end_)) = true := by
  have hs := off_bounds cur.start sack.start
  have he := off_bounds cur.start sack.end_
  have hc := off_bounds cur.start cur.end_
  simp only [seqLeq, seqLt, seqGt, seqGeq, Bool.or_eq_true, Bool.and_eq_true, decide_eq_true_eq,
    toInt_sub_bmod cur.start, off_self]
  simp only [Int.bmod_def]
  split_ifs <;> omega

/-- The walk never stays where it is. -/
theorem holeWalk_ne_spins (maxseg : Nat) {sack : Sackblk}
    (hne : seqLeq sack.end_ sack.start = false) (rest : List Sackhole) (pools : List Bool) (n : Int)
    (before : List Sackhole) : holeWalk maxseg sack pools n before rest ≠ .spins := by
  induction rest generalizing pools n before with
  | nil => simp [holeWalk]
  | cons cur next ih =>
    have hbranch := some_branch sack cur
    unfold holeWalk
    split_ifs with h1 h2 h3 h4 h5 h6
    · split <;> simp
    · exact ih _ _ _
    · exact ih _ _ _
    · exact ih _ _ _
    · exact ih _ _ _
    · split
      · exact ih _ _ _
      · simp
    · simp [hne, h1, h2, h3, h5, h6] at hbranch

theorem sackBlock_ne_spins (thAck : Seq) (tp : Tcpcb) (pools : List Bool) (sack : Sackblk) :
    sackBlock thAck tp pools sack ≠ .spins := by
  unfold sackBlock
  split
  · simp
  rename_i hskip
  have hne : seqLeq sack.end_ sack.start = false := by
    simp only [blkSkip, Bool.or_eq_true, not_or, Bool.not_eq_true] at hskip
    exact hskip.1.1.1
  split
  · split <;> simp
  · split
    · rename_i hw
      exact absurd hw (holeWalk_ne_spins tp.tMaxseg hne _ _ _ _)
    · simp
    · split
      · split
        · split <;> simp
        · simp
      · simp

theorem sackLoop_ne_spins (thAck : Seq) (blocks : List Sackblk) (tp : Tcpcb) (pools : List Bool) :
    sackLoop thAck tp pools blocks ≠ .spins := by
  induction blocks generalizing tp pools with
  | nil => simp [sackLoop]
  | cons sack rest ih =>
    have hblock := sackBlock_ne_spins thAck tp pools sack
    rw [sackLoop]
    split
    · exact ih _ _
    · exact hblock

/-- Whatever the fields of the connection, of its holes and of the segment hold
and whatever the bytes of the option are, every round of the walk over the
holes takes a branch, and the option is done with. -/
theorem hole_walk_ends (tp : Tcpcb) (th : Tcphdr) (cp : List UInt8) (pools : List Bool) :
    (∀ (sack : Sackblk) (cur : Sackhole),
      (seqLeq sack.end_ sack.start || seqLeq sack.end_ cur.start || seqGeq sack.start cur.end_
        || seqLeq sack.start cur.start || seqGeq sack.end_ cur.end_
        || (seqLt cur.start sack.start && seqGt cur.end_ sack.end_)) = true)
      ∧ tcpSackOption tp th cp pools ≠ .spins := by
  refine ⟨some_branch, ?_⟩
  unfold tcpSackOption
  split
  · simp
  split
  · simp
  split
  · simp
  generalize (if tp.sndNumholes < 0 then { tp with sndNumholes := 0 } else tp) = tp'
  dsimp only
  split
  · simp
  · exact sackLoop_ne_spins _ _ _ _

/-! ## Positions in holes and blocks -/

/-- The position `d` ahead of `una` lies in a hole. -/
def InHoles (una : Seq) (holes : List Sackhole) (d : Int) : Prop :=
  ∃ h ∈ holes, off una h.start ≤ d ∧ d < off una h.end_

/-- The position `d` ahead of `una` lies in the block. -/
def InBlk (una : Seq) (sack : Sackblk) (d : Int) : Prop :=
  off una sack.start ≤ d ∧ d < off una sack.end_

section InHoles

variable {una : Seq} {d : Int}

@[simp] theorem inHoles_nil : ¬ InHoles una [] d := by
  rintro ⟨h, hmem, -⟩
  cases hmem

theorem inHoles_cons {h : Sackhole} {holes : List Sackhole} :
    InHoles una (h :: holes) d ↔
      (off una h.start ≤ d ∧ d < off una h.end_) ∨ InHoles una holes d := by
  simp only [InHoles, List.mem_cons, or_and_right, exists_or, exists_eq_left]

theorem inHoles_append {holes holes' : List Sackhole} :
    InHoles una (holes ++ holes') d ↔ InHoles una holes d ∨ InHoles una holes' d := by
  simp only [InHoles, List.mem_append, or_and_right, exists_or]

theorem inHoles_reverse {holes : List Sackhole} :
    InHoles una holes.reverse d ↔ InHoles una holes d := by
  simp only [InHoles, List.mem_reverse]

theorem inHoles_map_bump (maxseg : Nat) (sack : Sackblk) {holes : List Sackhole} :
    InHoles una (holes.map (bumpDups maxseg sack)) d ↔ InHoles una holes d := by
  simp only [InHoles, List.mem_map, exists_exists_and_eq_and, bumpDups]

end InHoles

/-! ## A block is taken out of the holes -/

section Walk

variable {una : Seq} {lo hi : Int} {sack : Sackblk}

/-- The holes passed are clear of the block, and the walk takes the block out of
those ahead. By induction on these. -/
theorem holeWalk_cover (maxseg : Nat) (hlo : 0 ≤ lo) (hhi : hi ≤ 2 ^ 30)
    (hblk : BlkIn una sack) (hst : 0 ≤ off una sack.start) :
    ∀ (rest : List Sackhole) (n : Int) (before : List Sackhole),
      (∀ h ∈ rest, HoleIn una lo hi h) →
      rest.Pairwise (fun a b => off una a.end_ < off una b.start) →
      (∀ h ∈ before, off una h.end_ ≤ off una sack.start ∨ off una sack.end_ ≤ off una h.start) →
      ∃ n' pre post, holeWalk maxseg sack [] n before rest = .done n' pre post [] ∧
        ∀ d, InHoles una (pre ++ post) d ↔
          InHoles una (before.reverse ++ rest) d ∧ ¬ InBlk una sack d
  | [], n, before, _, _, hbefore => by
      refine ⟨n, before.reverse, [], by rw [holeWalk], fun d => ⟨fun hd => ⟨hd, ?_⟩, And.left⟩⟩
      rw [List.append_nil, inHoles_reverse] at hd
      obtain ⟨h, hmem, hd⟩ := hd
      have := hbefore h hmem
      unfold InBlk
      omega
  | cur :: next, n, before, hin, hsort, hbefore => by
      have ih := holeWalk_cover maxseg hlo hhi hblk hst next
      obtain ⟨b1, b2, b3, b4⟩ := hblk
      obtain ⟨c1, c2, c3, c4, c5⟩ := hin cur List.mem_cons_self
      obtain ⟨hfirst, hnext⟩ := List.pairwise_cons.mp hsort
      have hin' : ∀ h ∈ next, HoleIn una lo hi h :=
        fun h hmem => hin h (List.mem_cons_of_mem cur hmem)
      -- what is left to show when the hole becomes the holes `l`
      have hstep : ∀ (l : List Sackhole) (n' : Int),
          (∀ h ∈ l, off una h.end_ ≤ off una sack.start ∨ off una sack.end_ ≤ off una h.start) →
          (∀ d, ¬ InBlk una sack d →
            (InHoles una l d ↔ off una cur.start ≤ d ∧ d < off una cur.end_)) →
          ∃ n'' pre post, holeWalk maxseg sack [] n' (l ++ before) next = .done n'' pre post [] ∧
            ∀ d, InHoles una (pre ++ post) d ↔
              InHoles una (before.reverse ++ cur :: next) d ∧ ¬ InBlk una sack d := by
        intro l n' hclear hsame
        obtain ⟨n'', pre, post, hw, hcov⟩ := ih n' (l ++ before) hin' hnext (fun h hmem =>
          (List.mem_append.mp hmem).elim (hclear h) (hbefore h))
        refine ⟨n'', pre, post, hw, fun d => (hcov d).trans (and_congr_left fun hd => ?_)⟩
        rw [inHoles_append, inHoles_reverse, inHoles_append, inHoles_append, inHoles_reverse,
          inHoles_cons, hsame d hd]
        tauto
      unfold holeWalk
      rw [seqLeq_off una ⟨by omega, by omega⟩, seqGeq_off una ⟨by omega, by omega⟩,
        seqLeq_off una ⟨by omega, by omega⟩, seqGeq_off una ⟨by omega, by omega⟩,
        seqLt_off una ⟨by omega, by omega⟩, seqGt_off una ⟨by omega, by omega⟩]
      split
      · -- the block is before the hole, and before all that follow
        rename_i hstop
        simp only [decide_eq_true_eq] at hstop
        have hclear : ∀ d, InHoles una (before.reverse ++ cur :: next) d ↔
            InHoles una (before.reverse ++ cur :: next) d ∧ ¬ InBlk una sack d := by
          refine fun d => ⟨fun hd => ⟨hd, ?_⟩, And.left⟩
          rw [inHoles_append, inHoles_reverse, inHoles_cons] at hd
          unfold InBlk
          obtain ⟨h, hmem, hd⟩ | hd | ⟨h, hmem, hd⟩ := hd
          · have := hbefore h hmem
            omega
          · omega
          · have := hfirst h hmem
            omega
        split
        · exact ⟨n, [cur], next, rfl, hclear⟩
        · exact ⟨n, _, cur :: next, rfl, hclear⟩
      rename_i hbefore'
      simp only [decide_eq_true_eq, not_le] at hbefore'
      split
      · rename_i hpast
        simp only [decide_eq_true_eq] at hpast
        refine hstep [bumpDups maxseg sack cur] n (fun h hmem => ?_) fun d hd => ?_
        · obtain rfl := List.mem_singleton.mp hmem
          exact .inl hpast
        · rw [inHoles_cons]
          simp [bumpDups]
      rename_i hreach
      simp only [decide_eq_true_eq, not_le] at hreach
      split
      · rename_i hstart
        simp only [decide_eq_true_eq] at hstart
        split
        · rename_i hend
          simp only [decide_eq_true_eq] at hend
          refine hstep [] (n - 1) (by simp) fun d hd => ?_
          simp only [inHoles_nil, false_iff]
          unfold InBlk at hd
          omega
        · rename_i hend
          simp only [decide_eq_true_eq, not_le] at hend
          refine hstep [_] n (fun h hmem => ?_) fun d hd => ?_
          · obtain rfl := List.mem_singleton.mp hmem
            exact .inr (le_refl _)
          · rw [inHoles_cons]
            simp only [inHoles_nil, or_false]
            unfold InBlk at hd
            omega
      rename_i hstart
      simp only [decide_eq_true_eq, not_le] at hstart
      split
      · rename_i hend
        simp only [decide_eq_true_eq] at hend
        refine hstep [_] n (fun h hmem => ?_) fun d hd => ?_
        · obtain rfl := List.mem_singleton.mp hmem
          exact .inl (le_refl _)
        · rw [inHoles_cons]
          simp only [inHoles_nil, or_false, bumpDups]
          unfold InBlk at hd
          omega
      · rename_i hend
        simp only [decide_eq_true_eq, not_le] at hend
        rw [if_pos (by simp [hstart, hend])]
        refine hstep [_, _] (n + 1) (fun h hmem => ?_) fun d hd => ?_
        · simp only [List.mem_cons, List.not_mem_nil, or_false] at hmem
          obtain rfl | rfl := hmem
          · exact .inr (le_refl _)
          · exact .inl (le_refl _)
        · rw [inHoles_cons, inHoles_cons]
          simp only [inHoles_nil, or_false, bumpDups]
          unfold InBlk at hd
          omega

end Walk

/-! ## One block -/

/-- A connection, with the blocks reported since its holes were last empty. Blocks
that are acknowledged altogether are dropped. -/
structure Scored where
  tp : Tcpcb
  reported : List Sackblk
deriving DecidableEq, Repr

/-- The holes are what is not reported between `lo` and `rcv_lastsack`, and no
reported block begins behind that. -/
structure Score (lo : Int) (una max last : Seq) (holes : List Sackhole)
    (reported : List Sackblk) : Prop where
  some : holes ≠ [] → reported ≠ []
  blk : ∀ b ∈ reported, off una b.start < off una b.end_
    ∧ off una b.end_ - off una b.start < 2 ^ 30 ∧ 0 < off una b.end_
    ∧ off una b.end_ ≤ off una max
  reach : ∀ b ∈ reported, off una b.start ≤ off una last
  top : reported ≠ [] → lo < off una last ∧ off una last ≤ off una max ∧
    ∃ b ∈ reported, b.end_ = last
  cover : reported ≠ [] → ∀ d, InHoles una holes d ↔
    lo ≤ d ∧ d < off una last ∧ ∀ b ∈ reported, ¬ InBlk una b d

abbrev ScoreInv (lo : Int) (s : Scored) : Prop :=
  Score lo s.tp.sndUna s.tp.sndMax s.tp.rcvLastsack s.tp.sndHoles s.reported

/-- The block is another one reported, or the first since the holes were empty. -/
def Scored.report (s : Scored) (sack : Sackblk) : List Sackblk :=
  if s.tp.sndHoles = [] then [sack] else sack :: s.reported

section Block

variable {thAck : Seq} {s : Scored} {lo : Int} {sack : Sackblk}

/-- A block between the acknowledgment and `snd_max` is looked at. -/
theorem blkSkip_of_between (h : SackInv lo s.tp) (hlo : off s.tp.sndUna thAck = lo)
    (hstart : lo < off s.tp.sndUna sack.start)
    (horder : off s.tp.sndUna sack.start < off s.tp.sndUna sack.end_)
    (hend : off s.tp.sndUna sack.end_ ≤ off s.tp.sndUna s.tp.sndMax) :
    blkSkip thAck s.tp sack = false := by
  have h0 := h.loNonneg
  have hmax := h.maxHi
  simp only [blkSkip, Bool.or_eq_false_iff, Bool.and_eq_false_iff]
  rw [seqLeq_off s.tp.sndUna ⟨by omega, by omega⟩,
    seqLeq_off s.tp.sndUna (by rw [off_self]; exact ⟨by omega, by omega⟩),
    seqLt_off s.tp.sndUna (x := sack.start) ⟨by omega, by omega⟩,
    seqGt_off s.tp.sndUna (x := sack.end_) ⟨by omega, by omega⟩, off_self]
  simp only [decide_eq_false_iff_not]
  exact ⟨⟨⟨by omega, by omega⟩, .inr (by omega)⟩, by omega⟩

/-- One block keeps the score, if no reported block reaches over `rcv_lastsack` when
a new hole begins there. -/
theorem sackBlock_score (h : SackInv lo s.tp) (hs : ScoreInv lo s)
    (hlo : off s.tp.sndUna thAck = lo) (hstart : lo < off s.tp.sndUna sack.start)
    (horder : off s.tp.sndUna sack.start < off s.tp.sndUna sack.end_)
    (hend : off s.tp.sndUna sack.end_ ≤ off s.tp.sndUna s.tp.sndMax)
    (hfresh : s.tp.sndHoles ≠ [] → off s.tp.sndUna s.tp.rcvLastsack < off s.tp.sndUna sack.start →
      ∀ b ∈ s.reported, off s.tp.sndUna b.end_ ≤ off s.tp.sndUna s.tp.rcvLastsack) :
    ∃ holes n last, sackBlock thAck s.tp [] sack =
        .next { s.tp with sndHoles := holes, sndNumholes := n, rcvLastsack := last } [] ∧
      Score lo s.tp.sndUna s.tp.sndMax last holes (s.report sack) := by
  have h0 := h.loNonneg
  have hmax := h.maxHi
  have hblkIn : BlkIn s.tp.sndUna sack := ⟨by omega, by omega, horder, by omega⟩
  unfold sackBlock
  rw [blkSkip_of_between h hlo hstart horder hend, if_neg Bool.false_ne_true]
  by_cases hnil : s.tp.sndHoles = []
  · rw [hnil]
    refine ⟨_, _, _, rfl, ?_⟩
    rw [Scored.report, if_pos hnil]
    refine ⟨by simp, fun b hb => ?_, fun b hb => ?_, fun _ => ⟨by omega, hend, sack, by simp⟩,
      fun _ d => ?_⟩
    · obtain rfl := List.mem_singleton.mp hb
      exact ⟨horder, by omega, by omega, hend⟩
    · obtain rfl := List.mem_singleton.mp hb
      exact horder.le
    · rw [inHoles_cons]
      simp only [inHoles_nil, or_false, List.mem_singleton, forall_eq, InBlk, hlo]
      omega
  · have hsome := hs.some hnil
    obtain ⟨hlast, hlastLe, b₀, hb₀, hb₀'⟩ := hs.top hsome
    have hhi : off s.tp.sndUna s.tp.rcvLastsack ≤ 2 ^ 30 := by omega
    have hblk : ∀ b ∈ sack :: s.reported, off s.tp.sndUna b.start < off s.tp.sndUna b.end_
        ∧ off s.tp.sndUna b.end_ - off s.tp.sndUna b.start < 2 ^ 30 ∧ 0 < off s.tp.sndUna b.end_
        ∧ off s.tp.sndUna b.end_ ≤ off s.tp.sndUna s.tp.sndMax := by
      intro b hb
      obtain rfl | hb := List.mem_cons.mp hb
      · exact ⟨horder, by omega, by omega, hend⟩
      · exact hs.blk b hb
    rw [Scored.report, if_neg hnil]
    have hsort : s.tp.sndHoles.Pairwise
        (fun a b => off s.tp.sndUna a.end_ < off s.tp.sndUna b.start) := by simpa using h.cut.apart
    split
    · exact absurd ‹_› hnil
    by_cases hbeyond : off s.tp.sndUna s.tp.rcvLastsack < off s.tp.sndUna sack.start
    · -- every hole is passed, and a new one made in front of the block
      have hmap : ¬ s.tp.sndHoles.map (bumpDups s.tp.tMaxseg sack) = [] := by simpa using hnil
      rw [holeWalk_beyond s.tp.tMaxseg h0 hhi hblkIn hbeyond.le _ _ _ _ h.cut]
      dsimp only
      rw [seqLt_off s.tp.sndUna ⟨by omega, by omega⟩, if_pos (by simpa using hbeyond)]
      simp only [poolNext, List.reverse_nil, List.nil_append, hmap, if_false]
      refine ⟨_, _, _, rfl, by simp, hblk, fun b hb => ?_, fun _ => ⟨by omega, hend, sack, by simp⟩,
        fun _ d => ?_⟩
      · obtain rfl | hb := List.mem_cons.mp hb
        · exact horder.le
        · have := hs.reach b hb
          omega
      · rw [inHoles_append, inHoles_map_bump, hs.cover hsome, inHoles_cons]
        simp only [inHoles_nil, or_false, List.forall_mem_cons]
        constructor
        · rintro (⟨hd, hd', hno⟩ | ⟨hd, hd'⟩)
          · exact ⟨hd, by omega, by unfold InBlk; omega, hno⟩
          · refine ⟨by omega, by omega, by unfold InBlk; omega, fun b hb hin => ?_⟩
            have := hfresh hnil hbeyond b hb
            unfold InBlk at hin
            omega
        · rintro ⟨hd, hd', hno, hall⟩
          by_cases hlt : d < off s.tp.sndUna s.tp.rcvLastsack
          · exact .inl ⟨hd, hlt, hall⟩
          · unfold InBlk at hno
            exact .inr (by omega)
    · obtain ⟨n', pre, post, hw, hcov⟩ := holeWalk_cover s.tp.tMaxseg h0 hhi hblkIn (by omega)
        s.tp.sndHoles s.tp.sndNumholes [] (fun a ha => h.cut.after_each a ha) hsort (by simp)
      rw [hw]
      dsimp only
      rw [seqLt_off s.tp.sndUna ⟨by omega, by omega⟩, if_neg (by simpa using hbeyond)]
      refine ⟨_, _, _, rfl, by simp, hblk, fun b hb => ?_,
        fun _ => ⟨hlast, hlastLe, b₀, List.mem_cons_of_mem _ hb₀, hb₀'⟩, fun _ d => ?_⟩
      · obtain rfl | hb := List.mem_cons.mp hb
        · exact not_lt.mp hbeyond
        · exact hs.reach b hb
      · rw [hcov, List.reverse_nil, List.nil_append, hs.cover hsome, List.forall_mem_cons]
        tauto

end Block

end Obsd.Tcp
