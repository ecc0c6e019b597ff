import Mathlib

/-!
# The items on the pages of a pool

`pool_init` of `kern/subr_pool.c` chooses the page size, the number of items
on a page and the range of the colours; `pool_prime_page` puts the items on a
page. `pool_layout_iff` says for which sizes, alignments and offsets every
page comes out right: the page size for large items can be too small, and the
largest colour leaves no room for the bytes that align the first item.
-/

namespace Obsd.PoolLayout

def roundup (x y : Nat) : Nat := (x + (y - 1)) / y * y

/-- To an unsigned number of 32 bits. -/
def u32 (x : Int) : Nat := (x % 4294967296).toNat

/-- The constants of a machine: page size, `ALIGN`, and the sizes of the two structures. -/
structure Machine where
  pageShift : Nat
  alignShift : Nat
  poolItem : Nat
  pageHeader : Nat
  shift_ge : 10 ≤ pageShift
  shift_le : pageShift ≤ 17
  align_le : 2 ^ alignShift ≤ poolItem
  header_le : 2 * roundup pageHeader (2 ^ alignShift) ≤ 2 ^ pageShift

namespace Machine

def amd64 : Machine := ⟨12, 3, 16, 96, by decide, by decide, by decide, by decide⟩

variable (m : Machine)

def PAGE_SIZE : Nat := 2 ^ m.pageShift
def ALIGN (x : Nat) : Nat := roundup x (2 ^ m.alignShift)

end Machine

def POOL_LARGE_MAXPAGES : Nat := 128

variable (m : Machine)

/-- The number of pages for an item that is larger than one. -/
def psize (size : Nat) : Nat :=
  min (if size = roundup size m.PAGE_SIZE then size / m.PAGE_SIZE
    else m.PAGE_SIZE / roundup (size % m.PAGE_SIZE) 1024) POOL_LARGE_MAXPAGES

/-! ## Rounding up -/

theorem le_roundup (x : Nat) {y : Nat} (hy : 0 < y) : x ≤ roundup x y := by
  have hdiv := Nat.div_add_mod (x + (y - 1)) y
  have hmod := Nat.mod_lt (x + (y - 1)) hy
  rw [Nat.mul_comm] at hdiv
  unfold roundup
  omega

theorem roundup_lt (x : Nat) {y : Nat} (hy : 0 < y) : roundup x y < x + y := by
  have hdiv := Nat.div_mul_le_self (x + (y - 1)) y
  unfold roundup
  omega

theorem dvd_roundup (x y : Nat) : y ∣ roundup x y := Nat.dvd_mul_left y _

theorem roundup_le {x y z : Nat} (hy : 0 < y) (hle : x ≤ z) (hdvd : y ∣ z) :
    roundup x y ≤ z := by
  obtain ⟨q, rfl⟩ := hdvd
  have hlt : (x + (y - 1)) / y < q + 1 := by
    rw [Nat.div_lt_iff_lt_mul hy, Nat.add_mul, Nat.mul_comm q y]
    omega
  calc roundup x y ≤ q * y := Nat.mul_le_mul_right y (Nat.le_of_lt_succ hlt)
    _ = y * q := Nat.mul_comm q y

theorem pageSize_pos : 0 < m.PAGE_SIZE := Nat.two_pow_pos _

theorem pageSize_le : m.PAGE_SIZE ≤ 131072 :=
  Nat.pow_le_pow_right (n := 2) (by decide) m.shift_le

theorem psize_pos {size : Nat} (hsize : m.PAGE_SIZE < size) : 0 < psize m size := by
  have hpage := pageSize_pos m
  refine Nat.lt_min.mpr ⟨?_, by decide⟩
  split
  · exact Nat.div_pos (Nat.le_of_lt hsize) hpage
  · rename_i hround
    have hrest : 0 < size % m.PAGE_SIZE := by
      rw [Nat.pos_iff_ne_zero]
      intro hzero
      obtain ⟨q, rfl⟩ := Nat.dvd_of_mod_eq_zero hzero
      exact hround (Nat.le_antisymm (le_roundup _ hpage)
        (roundup_le hpage le_rfl (Nat.dvd_mul_right _ _)))
    have hdvd : 1024 ∣ m.PAGE_SIZE := Nat.pow_dvd_pow 2 m.shift_ge
    refine Nat.div_pos (roundup_le (by decide) (Nat.le_of_lt (Nat.mod_lt _ hpage)) hdvd) ?_
    exact Nat.lt_of_lt_of_le hrest (le_roundup _ (by decide))

/-! ## `pool_init` -/

/-- A page allocator: `pa_pagesz`, and what the addresses of its pages are multiples of. -/
structure Allocator where
  pagesz : Nat
  pagealign : Nat
  pos : 0 < pagesz
  pages : m.PAGE_SIZE ∣ pagesz
  small : pagesz < 2147483648

/-- The allocator of a pool. The default one gives whole pages, aligned to pages. -/
def allocator (size : Nat) : Option (Allocator m) → Allocator m
  | some pa => pa
  | none =>
      if h : m.PAGE_SIZE < size then
        { pagesz := psize m size * m.PAGE_SIZE
          pagealign := m.PAGE_SIZE
          pos := Nat.mul_pos (psize_pos m h) (pageSize_pos m)
          pages := Nat.dvd_mul_left _ _
          small := Nat.lt_of_le_of_lt
            (Nat.mul_le_mul (Nat.min_le_right _ POOL_LARGE_MAXPAGES) (pageSize_le m)) (by decide) }
      else
        { pagesz := m.PAGE_SIZE
          pagealign := m.PAGE_SIZE
          pos := pageSize_pos m
          pages := Nat.dvd_refl _
          small := Nat.lt_of_le_of_lt (pageSize_le m) (by decide) }

structure Pool where
  size : Nat
  align : Nat
  itemoffset : Nat
  itemsperpage : Nat
  pagesz : Nat
  phInPage : Bool
  phoffset : Nat
  maxcolor : Nat
  curcolor : Nat

/-- The second half of `pool_init`, for the page size, the header's size and the rounded size. -/
def layout (pagesz header size align ioff : Nat) (phInPage : Bool) : Pool :=
  let off := if phInPage then pagesz - header else pagesz
  let ioff := ioff % align
  let itemsperpage := u32 (off - ((align - ioff) % align : Nat)) / size
  let slack : Int := off - (itemsperpage * size : Nat)
  { size, align, itemoffset := ioff, itemsperpage, pagesz, phInPage
    phoffset := if phInPage then off else 0
    maxcolor := u32 slack / align * align
    curcolor := 0 }

/-- What `pool_init` sets up, without the checks of `DIAGNOSTIC`. -/
def poolInit (size align ioff : Nat) (palloc : Option (Allocator m)) : Pool :=
  let pa := allocator m size palloc
  let align := if align = 0 then m.ALIGN 1 else align
  let size := if size < m.poolItem then m.poolItem else size
  let size := roundup size align
  layout pa.pagesz (m.ALIGN m.pageHeader) size align ioff
    (decide (size < pa.pagesz / 16 ∧ size < m.PAGE_SIZE))

/-! ## `pool_prime_page` -/

/-- `n` items from address `cp` on. -/
def itemLoop (size : Nat) : Nat → Nat → List Nat
  | 0, _ => []
  | n + 1, cp => cp :: itemLoop size n (cp + size)

/-- The pool with the next colour, and the addresses of the items. -/
def poolPrimePage (pp : Pool) (storage : Nat) : Pool × List Nat :=
  let cp := storage + pp.curcolor
  let next := pp.curcolor + pp.align
  let cp := if pp.itemoffset ≠ 0 then cp + (pp.align - pp.itemoffset) else cp
  ({ pp with curcolor := if pp.maxcolor < next then 0 else next },
    itemLoop pp.size pp.itemsperpage cp)

def primePages (pp : Pool) (storages : List Nat) : Pool :=
  storages.foldl (fun pp storage => (poolPrimePage pp storage).1) pp

/-- The items are as a page of the pool should have them. -/
structure PageOk (pp : Pool) (storage : Nat) (items : List Nat) : Prop where
  count : items.length = pp.itemsperpage
  aligned : ∀ x ∈ items, (x + pp.itemoffset) &&& (pp.align - 1) = 0
  disjoint : items.Pairwise fun x y => x + pp.size ≤ y ∨ y + pp.size ≤ x
  inside : ∀ x ∈ items, storage ≤ x ∧ x + pp.size ≤ storage + pp.pagesz
  header : pp.phInPage = true → ∀ x ∈ items,
    x + pp.size ≤ storage + pp.phoffset ∨ storage + pp.phoffset + m.pageHeader ≤ x

/-- A page holds an item, and every page that is primed after any others is right. -/
def LaidOut (pp : Pool) (pagealign : Nat) : Prop :=
  pp.size ≤ pp.pagesz ∧ 1 ≤ pp.itemsperpage ∧ ∀ (earlier : List Nat) (storage : Nat),
    pagealign ∣ storage → PageOk m pp storage (poolPrimePage (primePages pp earlier) storage).2

/-! ## Items of one page -/

theorem mem_itemLoop {size n cp x : Nat} :
    x ∈ itemLoop size n cp ↔ ∃ i < n, x = cp + i * size := by
  induction n generalizing cp with
  | zero => simp [itemLoop]
  | succ n ih =>
      rw [itemLoop, List.mem_cons, ih]
      constructor
      · rintro (rfl | ⟨i, hi, rfl⟩)
        · exact ⟨0, Nat.succ_pos n, by rw [Nat.zero_mul, Nat.add_zero]⟩
        · exact ⟨i + 1, Nat.succ_lt_succ hi, by rw [Nat.succ_mul]; omega⟩
      · rintro ⟨i, hi, rfl⟩
        cases i with
        | zero => exact .inl (by rw [Nat.zero_mul, Nat.add_zero])
        | succ i => exact .inr ⟨i, Nat.lt_of_succ_lt_succ hi, by rw [Nat.succ_mul]; omega⟩

theorem length_itemLoop (size n cp : Nat) : (itemLoop size n cp).length = n := by
  induction n generalizing cp with
  | zero => rfl
  | succ n ih => rw [itemLoop, List.length_cons, ih]

theorem pairwise_itemLoop (size n cp : Nat) :
    (itemLoop size n cp).Pairwise fun x y => x + size ≤ y ∨ y + size ≤ x := by
  induction n generalizing cp with
  | zero => exact .nil
  | succ n ih =>
      refine .cons (fun y hy => ?_) (ih _)
      obtain ⟨i, -, rfl⟩ := mem_itemLoop.mp hy
      exact .inl (Nat.le_add_right _ _)

/-! ## Colours -/

/-- The pool after other pages: only the colour is different. -/
theorem primePages_eq (pp : Pool) (storages : List Nat) :
    primePages pp storages = { pp with curcolor := (primePages pp storages).curcolor } := by
  induction storages generalizing pp with
  | nil => rfl
  | cons storage rest ih => exact ih (poolPrimePage pp storage).1

theorem primePages_color {pp : Pool} (hdvd : pp.align ∣ pp.curcolor)
    (hle : pp.curcolor ≤ pp.maxcolor) (storages : List Nat) :
    pp.align ∣ (primePages pp storages).curcolor ∧
      (primePages pp storages).curcolor ≤ pp.maxcolor := by
  induction storages generalizing pp with
  | nil => exact ⟨hdvd, hle⟩
  | cons storage rest ih =>
      refine @ih (poolPrimePage pp storage).1 ?_ ?_
      · change _ ∣ if _ then _ else _
        split
        · exact Nat.dvd_zero _
        · exact Nat.dvd_add hdvd (Nat.dvd_refl _)
      · change (if _ then _ else _) ≤ _
        split
        · exact Nat.zero_le _
        · rename_i hnext
          exact Nat.le_of_not_lt hnext

/-- Enough pages lead to the largest colour. -/
theorem primePages_last {pp : Pool} (k : Nat) (hcolor : pp.curcolor + k * pp.align = pp.maxcolor) :
    (primePages pp (List.replicate k 0)).curcolor = pp.maxcolor := by
  induction k generalizing pp with
  | zero => rw [← hcolor, Nat.zero_mul]; rfl
  | succ k ih =>
      rw [Nat.succ_mul] at hcolor
      refine @ih (poolPrimePage pp 0).1 ?_
      change (if _ then _ else _) + k * pp.align = _
      rw [if_neg (by omega)]
      change pp.curcolor + pp.align + k * pp.align = pp.maxcolor
      omega

/-! ## When a page comes out right -/

/-- How far the first item is moved so that the byte at `ioff` is aligned. -/
def lead (align ioff : Nat) : Nat := (align - ioff % align) % align

theorem lead_lt {align : Nat} (h : 0 < align) (ioff : Nat) : lead align ioff < align :=
  Nat.mod_lt _ h

theorem lead_eq {align : Nat} (h : 0 < align) (ioff : Nat) :
    (if ioff % align ≠ 0 then align - ioff % align else 0) = lead align ioff := by
  unfold lead
  split
  · exact (Nat.mod_eq_of_lt (by omega)).symm
  · rename_i hzero
    rw [not_not.mp hzero, Nat.sub_zero, Nat.mod_self]

theorem lead_dvd {align : Nat} (h : 0 < align) (ioff : Nat) :
    align ∣ lead align ioff + ioff % align := by
  have hlt := Nat.mod_lt ioff h
  rw [← lead_eq h]
  split
  · rw [Nat.sub_add_cancel (Nat.le_of_lt hlt)]
  · rename_i hzero
    rw [not_not.mp hzero]
    exact Nat.dvd_zero _

/-- What `pool_init` leaves, for a page that ends at `off` for the items. -/
structure Set (pp : Pool) (off ioff : Nat) : Prop where
  align : ∃ i, pp.align = 2 ^ i
  offset : pp.itemoffset = ioff % pp.align
  size : pp.align ∣ pp.size
  pos : 0 < pp.size
  items : pp.itemsperpage = (off - lead pp.align ioff) / pp.size
  maxcolor : pp.maxcolor = (off - pp.itemsperpage * pp.size) / pp.align * pp.align
  first : pp.curcolor = 0
  fits : pp.size ≤ off
  header : if pp.phInPage then pp.phoffset = off ∧ pp.pagesz = off + m.ALIGN m.pageHeader
    else pp.pagesz = off
  least : m.poolItem ≤ pp.size

variable {m}

theorem Set.align_pos {pp : Pool} {off ioff : Nat} (h : Set m pp off ioff) : 0 < pp.align := by
  obtain ⟨i, hi⟩ := h.align
  rw [hi]
  exact Nat.two_pow_pos i

theorem Set.items_le {pp : Pool} {off ioff : Nat} (h : Set m pp off ioff) :
    pp.itemsperpage * pp.size ≤ off - lead pp.align ioff := by
  rw [h.items]
  exact Nat.div_mul_le_self _ _

/-- The largest colour leaves as many bytes as `off` has over a multiple of the alignment. -/
theorem Set.maxcolor_add {pp : Pool} {off ioff : Nat} (h : Set m pp off ioff) :
    pp.maxcolor + pp.itemsperpage * pp.size + off % pp.align = off := by
  have hdvd : pp.align ∣ pp.itemsperpage * pp.size := Nat.dvd_mul_left_of_dvd h.size _
  have hle : pp.itemsperpage * pp.size ≤ off := Nat.le_trans h.items_le (Nat.sub_le _ _)
  have hmod : (off - pp.itemsperpage * pp.size) % pp.align = off % pp.align := by
    obtain ⟨q, hq⟩ := hdvd
    rw [hq] at hle ⊢
    exact Nat.sub_mul_mod hle
  have hdiv := Nat.div_add_mod (off - pp.itemsperpage * pp.size) pp.align
  rw [hmod, Nat.mul_comm, ← h.maxcolor] at hdiv
  omega

theorem Set.primed {pp : Pool} {off ioff : Nat} (h : Set m pp off ioff) (earlier : List Nat)
    (storage : Nat) : (poolPrimePage (primePages pp earlier) storage).2 =
      itemLoop pp.size pp.itemsperpage
        (storage + (primePages pp earlier).curcolor + lead pp.align ioff) := by
  rw [primePages_eq, poolPrimePage]
  dsimp only
  rw [← lead_eq h.align_pos ioff, h.offset]
  split <;> rfl

theorem Set.aligned_iff {pp : Pool} {off ioff : Nat} (h : Set m pp off ioff) (x : Nat) :
    (x + pp.itemoffset) &&& (pp.align - 1) = 0 ↔ pp.align ∣ x + ioff % pp.align := by
  obtain ⟨i, hi⟩ := h.align
  rw [h.offset, hi, Nat.and_two_pow_sub_one_eq_mod, Nat.dvd_iff_mod_eq_zero]

theorem Set.off_le {pp : Pool} {off ioff : Nat} (h : Set m pp off ioff) : off ≤ pp.pagesz := by
  have hheader := h.header
  split at hheader
  · rw [hheader.2]
    exact Nat.le_add_right _ _
  · exact Nat.le_of_eq hheader.symm

/-- An item of a page that is right ends before `off`. -/
theorem Set.end_le {pp : Pool} {off ioff storage : Nat} {items : List Nat}
    (h : Set m pp off ioff) (hok : PageOk m pp storage items) {x : Nat} (hx : x ∈ items) :
    x + pp.size ≤ storage + off := by
  have hheader := h.header
  have hin := (hok.inside x hx).2
  split at hheader
  · rename_i hph
    refine (hok.header hph x hx).elim (fun hle => ?_) (fun hle => ?_)
    · rwa [hheader.1] at hle
    · have hpad : m.ALIGN m.pageHeader < m.pageHeader + 2 ^ m.alignShift :=
        roundup_lt _ (Nat.two_pow_pos _)
      have hitem := Nat.le_trans m.align_le h.least
      omega
  · rwa [hheader] at hin

/-- Where every item lies that a page may get, whatever its colour. -/
theorem Set.pageOk {pp : Pool} {off ioff : Nat} (h : Set m pp off ioff) {color storage : Nat}
    (hstorage : pp.align ∣ storage) (hcolor : pp.align ∣ color) (hle : color ≤ pp.maxcolor)
    (hlead : lead pp.align ioff ≤ off % pp.align) : PageOk m pp storage
      (itemLoop pp.size pp.itemsperpage (storage + color + lead pp.align ioff)) := by
  have hend : ∀ i < pp.itemsperpage,
      storage + color + lead pp.align ioff + i * pp.size + pp.size ≤ storage + off := by
    intro i hi
    have hmax := h.maxcolor_add
    have hmul := Nat.mul_le_mul_right pp.size hi
    rw [Nat.succ_mul] at hmul
    omega
  refine ⟨length_itemLoop _ _ _, ?_, pairwise_itemLoop _ _ _, ?_, ?_⟩
  · intro x hx
    obtain ⟨i, -, rfl⟩ := mem_itemLoop.mp hx
    have hitem : pp.align ∣ i * pp.size := Nat.dvd_mul_left_of_dvd h.size _
    have hsum := Nat.dvd_add (Nat.dvd_add (Nat.dvd_add hstorage hcolor) hitem)
      (lead_dvd h.align_pos ioff)
    rw [h.aligned_iff]
    convert hsum using 1
    omega
  · intro x hx
    obtain ⟨i, hi, rfl⟩ := mem_itemLoop.mp hx
    have hpage := h.off_le
    have hlast := hend i hi
    omega
  · intro hph x hx
    obtain ⟨i, hi, rfl⟩ := mem_itemLoop.mp hx
    have hheader := h.header
    rw [if_pos hph] at hheader
    rw [hheader.1]
    exact .inl (hend i hi)

/-- The condition: pages are aligned enough, and the first item's move fits behind the last. -/
theorem Set.laidOut_iff {pp : Pool} {off ioff : Nat} (h : Set m pp off ioff) (pagealign : Nat) :
    LaidOut m pp pagealign ↔ pp.align ∣ pagealign ∧ lead pp.align ioff ≤ off % pp.align := by
  have hpos := h.align_pos
  constructor
  · rintro ⟨-, hone, hpages⟩
    constructor
    · have hok := hpages [] pagealign (Nat.dvd_refl _)
      rw [h.primed] at hok
      have hfirst := hok.aligned _ (mem_itemLoop.mpr ⟨0, hone, rfl⟩)
      rw [h.aligned_iff, Nat.zero_mul, Nat.add_zero, Nat.add_assoc,
        Nat.dvd_add_left (lead_dvd hpos ioff)] at hfirst
      change pp.align ∣ pagealign + pp.curcolor at hfirst
      rwa [h.first] at hfirst
    · let k := (off - pp.itemsperpage * pp.size) / pp.align
      have hlast := @primePages_last pp k (by rw [h.first, Nat.zero_add, h.maxcolor])
      have hok := hpages (List.replicate k 0) 0 (Nat.dvd_zero _)
      rw [h.primed, hlast] at hok
      obtain ⟨n, hn⟩ := Nat.exists_eq_add_of_le' hone
      have hend := h.end_le hok (mem_itemLoop.mpr ⟨n, by omega, rfl⟩)
      have hmax := h.maxcolor_add
      rw [hn, Nat.succ_mul] at hmax
      omega
  · rintro ⟨halign, hlead⟩
    refine ⟨Nat.le_trans h.fits h.off_le, ?_, fun earlier storage hstorage => ?_⟩
    · have hroom : lead pp.align ioff + pp.size ≤ off := by
        obtain ⟨q, hq⟩ := h.size
        have hfits := h.fits
        have hdiv := Nat.div_add_mod off pp.align
        rw [hq, Nat.mul_comm] at hfits
        have hle := Nat.mul_le_mul_left pp.align ((Nat.le_div_iff_mul_le hpos).mpr hfits)
        omega
      rw [h.items]
      exact Nat.div_pos (by omega) h.pos
    · have hcolor := @primePages_color pp (by rw [h.first]; exact Nat.dvd_zero _)
        (by rw [h.first]; exact Nat.zero_le _) earlier
      rw [h.primed]
      exact h.pageOk (Nat.dvd_trans halign hstorage) hcolor.1 hcolor.2 hlead

/-! ## Every size, alignment and offset -/

theorem u32_sub {a b : Nat} (hle : b ≤ a) (hlt : a < 4294967296) : u32 (a - b) = a - b := by
  unfold u32
  omega

/-- A pool whose items fit a page is set up without overflow. -/
theorem set_layout {pagesz size align : Nat} (ioff : Nat) {phInPage : Bool}
    (hpow : ∃ i, align = 2 ^ i) (hdvd : align ∣ size) (hleast : m.poolItem ≤ size)
    (hheader : m.ALIGN m.pageHeader ≤ pagesz) (hsmall : pagesz < 2147483648)
    (hroom : size ≤ if phInPage then pagesz - m.ALIGN m.pageHeader else pagesz) :
    Set m (layout pagesz (m.ALIGN m.pageHeader) size align ioff phInPage)
      (if phInPage then pagesz - m.ALIGN m.pageHeader else pagesz) ioff := by
  have hpos : 0 < align := by
    obtain ⟨i, rfl⟩ := hpow
    exact Nat.two_pow_pos i
  have hsize : 0 < size :=
    Nat.lt_of_lt_of_le (Nat.lt_of_lt_of_le (Nat.two_pow_pos _) m.align_le) hleast
  have hphoffset : if phInPage then
      (if phInPage then if phInPage then pagesz - m.ALIGN m.pageHeader else pagesz else 0) =
        (if phInPage then pagesz - m.ALIGN m.pageHeader else pagesz) ∧
      pagesz = (if phInPage then pagesz - m.ALIGN m.pageHeader else pagesz) +
        m.ALIGN m.pageHeader
      else pagesz = if phInPage then pagesz - m.ALIGN m.pageHeader else pagesz := by
    cases phInPage with
    | true => exact ⟨rfl, (Nat.sub_add_cancel hheader).symm⟩
    | false => rfl
  have hoff : (if phInPage then pagesz - m.ALIGN m.pageHeader else pagesz) < 4294967296 := by
    split <;> omega
  unfold layout
  dsimp only
  generalize (if phInPage then pagesz - m.ALIGN m.pageHeader else pagesz) = off
    at hroom hphoffset hoff ⊢
  have hlead : lead align ioff ≤ off := Nat.le_trans (Nat.le_of_lt (lead_lt hpos ioff))
    (Nat.le_trans (Nat.le_of_dvd hsize hdvd) hroom)
  have hitems : u32 (off - ((align - ioff % align) % align : Nat)) / size =
      (off - lead align ioff) / size := congrArg (· / size) (u32_sub hlead hoff)
  rw [hitems, u32_sub (Nat.le_trans (Nat.div_mul_le_self _ _) (Nat.sub_le _ _)) hoff]
  exact ⟨hpow, rfl, hdvd, hsize, rfl, rfl, rfl, hroom, hphoffset, hleast⟩

variable (m)

/-- What `pool_init` and `pool_prime_page` need of their arguments: the rounded item fits a page,
pages are aligned to `align`, and the bytes in front of the first item fit the bytes that `align`
leaves over. -/
def Fits (size align ioff : Nat) (palloc : Option (Allocator m)) : Prop :=
  let pa := allocator m size palloc
  let a := if align = 0 then m.ALIGN 1 else align
  let s := roundup (max size m.poolItem) a
  let off := if s < pa.pagesz / 16 ∧ s < m.PAGE_SIZE then pa.pagesz - m.ALIGN m.pageHeader
    else pa.pagesz
  s ≤ pa.pagesz ∧ a ∣ pa.pagealign ∧ lead a ioff ≤ off % a

theorem align_one : m.ALIGN 1 = 2 ^ m.alignShift := by
  have hpos : 0 < 2 ^ m.alignShift := Nat.two_pow_pos _
  rw [Machine.ALIGN, roundup, Nat.add_sub_cancel' hpos, Nat.div_self hpos, Nat.one_mul]

/-- The pages of a pool come out right for exactly these sizes, alignments and offsets. -/
theorem pool_layout_iff (palloc : Option (Allocator m)) (size align ioff : Nat)
    (halign : align = 0 ∨ ∃ i, align = 2 ^ i) :
    LaidOut m (poolInit m size align ioff palloc) (allocator m size palloc).pagealign ↔
      Fits m size align ioff palloc := by
  have hpow : ∃ i, (if align = 0 then m.ALIGN 1 else align) = 2 ^ i := by
    split
    · exact ⟨_, align_one m⟩
    · rename_i hne
      exact halign.resolve_left hne
  have hitem : (if size < m.poolItem then m.poolItem else size) = max size m.poolItem := by
    split <;> omega
  unfold poolInit Fits
  rw [hitem]
  generalize (if align = 0 then m.ALIGN 1 else align) = a at hpow ⊢
  generalize allocator m size palloc = pa
  have hpos : 0 < a := by
    obtain ⟨i, rfl⟩ := hpow
    exact Nat.two_pow_pos i
  have hleast := Nat.le_trans (Nat.le_max_right size m.poolItem) (le_roundup _ hpos)
  have hhalf : 2 * m.ALIGN m.pageHeader ≤ pa.pagesz :=
    Nat.le_trans m.header_le (Nat.le_of_dvd pa.pos pa.pages)
  by_cases hfit : roundup (max size m.poolItem) a ≤ pa.pagesz
  · have hset := @set_layout m pa.pagesz (roundup (max size m.poolItem) a) a ioff
      (decide (roundup (max size m.poolItem) a < pa.pagesz / 16 ∧
        roundup (max size m.poolItem) a < m.PAGE_SIZE))
      hpow (dvd_roundup _ _) hleast (by omega) pa.small (by
        split
        · rename_i hin
          rw [decide_eq_true_eq] at hin
          omega
        · exact hfit)
    rw [hset.laidOut_iff]
    simp only [decide_eq_true_eq]
    exact (and_iff_right hfit).symm
  · exact iff_of_false (fun h => hfit h.1) (fun h => hfit h.1)

/-- 40 bytes, with the default alignment and the default allocator. -/
theorem pool_forty : LaidOut .amd64 (poolInit .amd64 40 0 0 none) 4096 :=
  (pool_layout_iff .amd64 none 40 0 0 (.inl rfl)).mpr ⟨by decide, by decide, by decide⟩

/-- Items of 7000 bytes get pages of 4096. And with items of 40 bytes whose byte at 4 is aligned,
the last item of a page of the largest colour runs into the page header. -/
theorem pool_seven_thousand : ¬LaidOut .amd64 (poolInit .amd64 7000 0 0 none) 4096 ∧
    ¬LaidOut .amd64 (poolInit .amd64 40 0 4 none) 4096 :=
  ⟨fun h => absurd h.1 (by decide), fun h =>
    absurd ((h.2.2 (List.replicate 5 0) 0 (by decide)).header rfl 3964 (by decide)) (by decide)⟩

end Obsd.PoolLayout
