import UBoot.Video.Img2rle

/-!
# Logos on the panel

`rle_plot` of `drivers/video/jz_lcd/jz_lcd_v13.c` at 16 bits a pixel, without
`CONFIG_LOGO_EXTEND`. Memory is addressed in units of 16 bits. The outcome is the list of stores
to the frame buffer; a loop that does not end within `fuel` turns has none.
-/

namespace UBoot.Video

open RunLength List

structure Panel where
  vlCol : Nat
  vlRow : Nat
  vlCol_lt : vlCol < 2 ^ 16
  vlRow_lt : vlRow < 2 ^ 16

abbrev Memory := Int → UInt16

abbrev Store := Int × UInt16

def fbmemSet (ptr : Int) (val : UInt16) (count : Nat) : List Store :=
  (List.range count).map fun k : Nat => (ptr + (k : Int), val)

def photoSizeOf (src : Memory) : Int :=
  (((src 3).toNat <<< 16 ||| (src 2).toNat : Nat) : Int).bmod (2 ^ 32)

/-! ## Pictures with more pixels than the panel -/

structure Biger where
  photoPtr : Int
  photoSize : Int
  writeCount : Int
  lcdFb : Int
  stores : List Store

def Biger.plotRow (src : Memory) : Nat → Int → Biger → Option (Int × Biger)
  | 0, _, _ => none
  | fuel + 1, disWidth, s =>
    if disWidth ≤ 0 ∨ s.photoSize < 0 then some (disWidth, s)
    else
      let writeCount := (src (s.photoPtr + 2)).toNat
      plotRow src fuel (disWidth - writeCount)
        { photoPtr := s.photoPtr + 2
          photoSize := s.photoSize - 2
          writeCount
          lcdFb := s.lcdFb + s.writeCount
          stores := s.stores ++ fbmemSet s.lcdFb (src (s.photoPtr + 1)) s.writeCount.toNat }

def Biger.skip (src : Memory) : Nat → Int → Biger → Option (Int × Biger)
  | 0, _, _ => none
  | fuel + 1, extraWidth, s =>
    if extraWidth ≤ 0 then some (extraWidth, s)
    else
      let writeCount := (src (s.photoPtr + 2)).toNat
      skip src fuel (extraWidth - writeCount)
        { s with photoPtr := s.photoPtr + 2, photoSize := s.photoSize - 2, writeCount }

def Biger.plotRows (src : Memory) (fuel photoWidth vmWidth : Nat) : Nat → Biger → Option Biger
  | 0, s => some s
  | disHeight + 1, s => do
    let (disWidth, s) ← s.plotRow src fuel (min photoWidth vmWidth)
    let s := if disWidth < 0 then
        { s with photoPtr := s.photoPtr - 2, photoSize := s.photoSize + 2,
                 lcdFb := s.lcdFb + disWidth, writeCount := - disWidth }
      else s
    let (extraWidth, s) ← s.skip src fuel (photoWidth - vmWidth)
    let s := if extraWidth < 0 then
        { s with photoPtr := s.photoPtr - 2, photoSize := s.photoSize + 2,
                 writeCount := - extraWidth }
      else s
    plotRows src fuel photoWidth vmWidth disHeight s

def rlePlotBiger (panel : Panel) (src : Memory) (fuel : Nat) : Option (List Store) :=
  let photoWidth := (src 0).toNat
  let photoHeight := (src 1).toNat
  if photoSizeOf src > 0 then
    let s : Biger := ⟨4, photoSizeOf src, (src 4).toNat, 0, []⟩
    (s.plotRows src fuel photoWidth panel.vlCol (min photoHeight panel.vlRow)).map Biger.stores
  else some []

/-! ## Other pictures -/

structure Plot where
  photoPtr : Int
  photoSize : Int
  compressCount : Nat
  compressVal : UInt16
  lcdFb : Int
  stores : List Store

namespace Plot

def next (src : Memory) (s : Plot) : Plot :=
  { s with
    photoPtr := s.photoPtr + 2
    photoSize := s.photoSize - 2
    compressCount := (src (s.photoPtr + 2)).toNat
    compressVal := src (s.photoPtr + 3) }

/-- What is left of the run after `writeCount` pixels of it, or the next one. -/
def consume (src : Memory) (writeCount : Nat) (s : Plot) : Plot :=
  if s.compressCount > writeCount then { s with compressCount := s.compressCount - writeCount }
  else s.next src

def paint (writeCount : Nat) (s : Plot) : Plot :=
  { s with
    stores := s.stores ++ fbmemSet s.lcdFb s.compressVal writeCount
    lcdFb := s.lcdFb + writeCount }

/-- Empty runs leave `dis_width` as it is and use up `photo_size`. -/
def plotRow (src : Memory) : Nat → Nat → Plot → Option Plot
  | 0, _, _ => none
  | fuel + 1, disWidth, s =>
    if disWidth = 0 ∨ s.photoSize < 0 then some s
    else
      let writeCount := min s.compressCount disWidth
      plotRow src fuel (disWidth - writeCount) ((s.paint writeCount).consume src writeCount)

def skip (src : Memory) : Nat → Nat → Plot → Option Plot
  | 0, _, _ => none
  | fuel + 1, xwidth, s =>
    if xwidth = 0 then some s
    else
      let writeCount := min s.compressCount xwidth
      skip src fuel (xwidth - writeCount) (s.consume src writeCount)

def margin (width : Int) (s : Plot) : Plot := { s with lcdFb := s.lcdFb + width }

def plotRows (src : Memory) (fuel width : Nat) (ewidth : Int) : Nat → Plot → Option Plot
  | 0, s => some s
  | disHeight + 1, s => do
    let s := if ewidth > 0 then s.margin ewidth else s
    let s ← s.plotRow src fuel width
    let s ← if ewidth > 0 then some (s.margin ewidth) else s.skip src fuel (- ewidth).toNat
    plotRows src fuel width ewidth disHeight s

end Plot

def rlePlotSmaller (panel : Panel) (src : Memory) (fuel : Nat) : Option (List Store) :=
  let photoWidth := (src 0).toNat
  let photoHeight := (src 1).toNat
  let ewidth := ((panel.vlCol : Int) - photoWidth).tdiv 2
  let eheight := ((panel.vlRow : Int) - photoHeight).tdiv 2
  if photoSizeOf src > 0 then
    let s : Plot := ⟨4, photoSizeOf src, (src 4).toNat, src 5, 0, []⟩
    let s := if eheight > 0 then s.margin (eheight * panel.vlCol) else s
    (s.plotRows src fuel (min photoWidth panel.vlCol) ewidth
      (min photoHeight panel.vlRow)).map Plot.stores
  else some []

def rlePlot (panel : Panel) (src : Memory) (fuel : Nat) : Option (List Store) :=
  let flag := (((src 0).toNat * (src 1).toNat : Int) - panel.vlCol * panel.vlRow).bmod (2 ^ 32)
  if flag ≤ 0 then rlePlotSmaller panel src fuel else rlePlotBiger panel src fuel

/-! ## Pixels in a row -/

def place (ptr : Int) : List UInt16 → List Store
  | [] => []
  | colour :: colours => (ptr, colour) :: place (ptr + 1) colours

@[simp] theorem place_nil (ptr : Int) : place ptr [] = [] := rfl

theorem place_append (ptr : Int) (colours more : List UInt16) :
    place ptr (colours ++ more) = place ptr colours ++ place (ptr + colours.length) more := by
  induction colours generalizing ptr with
  | nil => simp
  | cons colour colours ih =>
    simp only [cons_append, place, ih, length_cons, Nat.cast_add, Nat.cast_one]
    rw [add_right_comm, add_assoc]

theorem fbmemSet_eq (ptr : Int) (val : UInt16) (count : Nat) :
    fbmemSet ptr val count = place ptr (List.replicate count val) := by
  induction count with
  | zero => rfl
  | succ count ih =>
    rw [replicate_succ', place_append, ← ih, fbmemSet, range_succ, map_append]
    simp [fbmemSet, place]

theorem map_snd_place (ptr : Int) (colours : List UInt16) :
    (place ptr colours).map Prod.snd = colours := by
  induction colours generalizing ptr with
  | nil => rfl
  | cons colour colours ih => exact congrArg (colour :: ·) (ih _)

variable {store : Store}

theorem mem_place :
    store ∈ place ptr colours ↔ ∃ x : Nat, store.1 = ptr + x ∧ colours[x]? = some store.2 := by
  induction colours generalizing ptr with
  | nil => simp
  | cons colour colours ih =>
    rw [place, mem_cons, ih]
    constructor
    · rintro (rfl | ⟨x, hpos, hget⟩)
      · exact ⟨0, by simp, rfl⟩
      · exact ⟨x + 1, by rw [hpos]; push_cast; ring, hget⟩
    · rintro ⟨x, hpos, hget⟩
      cases x with
      | zero =>
        refine .inl (Prod.ext ?_ ?_)
        · simpa using hpos
        · simpa using hget.symm
      | succ x => exact .inr ⟨x, by rw [hpos]; push_cast; ring, hget⟩

theorem place_bounds
    (h : store ∈ place ptr colours) : ptr ≤ store.1 ∧ store.1 < ptr + colours.length := by
  obtain ⟨x, hpos, hget⟩ := mem_place.mp h
  obtain ⟨hx, -⟩ := List.getElem?_eq_some_iff.mp hget
  omega

theorem pairwise_place (ptr : Int) (colours : List UInt16) :
    (place ptr colours).Pairwise (·.1 < ·.1) := by
  induction colours generalizing ptr with
  | nil => exact List.Pairwise.nil
  | cons colour colours ih =>
    refine List.Pairwise.cons (fun store hstore => ?_) (ih _)
    have := (place_bounds hstore).1
    show ptr < store.1
    omega

/-! ## The runs that are ahead -/

def Stored (src : Memory) : Int → List (Run UInt16) → Prop
  | _, [] => True
  | ptr, run :: runs => (src ptr).toNat = run.1 ∧ src (ptr + 1) = run.2 ∧ Stored src (ptr + 2) runs

theorem Stored.append (h : Stored src ptr runs) (h' : Stored src (ptr + 2 * runs.length) more) :
    Stored src ptr (runs ++ more) := by
  induction runs generalizing ptr with
  | nil => simpa using h'
  | cons run runs ih =>
    refine ⟨h.1, h.2.1, ih h.2.2 ?_⟩
    have hptr : ptr + 2 + 2 * (runs.length : Int) = ptr + 2 * ((run :: runs).length : Int) := by
      rw [length_cons]
      push_cast
      ring
    rwa [hptr]

namespace Plot

def Feeds (src : Memory) (s : Plot) : List (Run UInt16) → Prop
  | [] => True
  | run :: runs => s.compressCount = run.1 ∧ s.compressVal = run.2 ∧ Stored src (s.photoPtr + 2) runs

theorem feeds_next {s : Plot} (h : Stored src (s.photoPtr + 2) runs) :
    (s.next src).Feeds src runs := by
  cases runs with
  | nil => trivial
  | cons run runs =>
    obtain ⟨hcount, hval, hrest⟩ := h
    refine ⟨hcount, ?_, hrest⟩
    rw [← hval, next, add_assoc]
    rfl

@[simp] theorem stores_consume (src : Memory) (n : Nat) (s : Plot) :
    (s.consume src n).stores = s.stores := by
  unfold consume
  split <;> rfl

@[simp] theorem lcdFb_consume (src : Memory) (n : Nat) (s : Plot) :
    (s.consume src n).lcdFb = s.lcdFb := by
  unfold consume
  split <;> rfl

structure Fed (src : Memory) (s : Plot) (runs : List (Run UInt16)) (colours : List UInt16) :
    Prop where
  feeds : s.Feeds src runs
  positive : Positive runs
  expand_eq : expand runs = colours

/-- What `photo_size` leaves beyond the runs ahead, each of which takes two of it. -/
def slack (s : Plot) (runs : List (Run UInt16)) : Int := s.photoSize - 2 * runs.length

section
variable (h : Fed src s runs colours)
include h

theorem Fed.turn (hpos : 0 < disWidth) (hle : disWidth ≤ colours.length) :
    0 < min s.compressCount disWidth ∧
      ∃ runs', Fed src ((s.paint (min s.compressCount disWidth)).consume src
          (min s.compressCount disWidth)) runs' (colours.drop (min s.compressCount disWidth)) ∧
        (s.paint (min s.compressCount disWidth)).stores =
          s.stores ++ place s.lcdFb (colours.take (min s.compressCount disWidth)) ∧
        s.slack runs ≤ ((s.paint (min s.compressCount disWidth)).consume src
          (min s.compressCount disWidth)).slack runs' := by
  obtain ⟨hfeeds, hposs, rfl⟩ := h
  cases runs with
  | nil => exact absurd hle (by simp; omega)
  | cons run runs =>
    obtain ⟨hcount, hval, hstored⟩ := hfeeds
    have hrun : 0 < run.1 := hposs run mem_cons_self
    have hruns : Positive runs := fun r hr => hposs r (mem_cons_of_mem _ hr)
    rw [hcount]
    have htake (n : Nat) (hn : n ≤ run.1) :
        (expand (run :: runs)).take n = replicate n run.2 := by
      rw [expand_cons, take_append_of_le_length (by simpa using hn), take_replicate,
        Nat.min_eq_left hn]
    have hstores : (s.paint (min run.1 disWidth)).stores =
        s.stores ++ place s.lcdFb ((expand (run :: runs)).take (min run.1 disWidth)) := by
      rw [htake _ (Nat.min_le_left ..), ← fbmemSet_eq, paint, hval]
    refine ⟨by omega, ?_⟩
    by_cases hmore : disWidth < run.1
    · -- The row ends within the run.
      rw [Nat.min_eq_right hmore.le] at hstores ⊢
      have hconsume : (s.paint disWidth).consume src disWidth =
          { s.paint disWidth with compressCount := s.compressCount - disWidth } :=
        if_pos (by rw [← hcount] at hmore; exact hmore)
      refine ⟨(run.1 - disWidth, run.2) :: runs, ⟨?_, ?_, ?_⟩, hstores, ?_⟩
      · rw [hconsume]
        exact ⟨by rw [hcount], hval, hstored⟩
      · exact forall_mem_cons.mpr ⟨Nat.sub_pos_of_lt hmore, hruns⟩
      · rw [expand_cons, expand_cons, drop_append_of_le_length (by simpa using hmore.le),
          drop_replicate]
      · rw [hconsume]
        exact le_of_eq rfl
    · -- The run ends within the row or with it.
      rw [Nat.min_eq_left (by omega)] at hstores ⊢
      have hconsume : (s.paint run.1).consume src run.1 = (s.paint run.1).next src :=
        if_neg (by rw [← hcount]; exact lt_irrefl s.compressCount)
      refine ⟨runs, ⟨?_, hruns, ?_⟩, hstores, ?_⟩
      · rw [hconsume]
        exact feeds_next hstored
      · rw [expand_cons, drop_append_of_le_length (by simp), drop_replicate]
        simp
      · rw [hconsume]
        simp only [slack, next, paint, length_cons]
        push_cast
        omega

theorem Fed.plotRow (hle : disWidth ≤ colours.length) (hrow : s.plotRow src fuel disWidth = some s')
    :
    ∃ n ≤ disWidth, ∃ runs', Fed src s' runs' (colours.drop n) ∧
      s'.stores = s.stores ++ place s.lcdFb (colours.take n) ∧ s'.lcdFb = s.lcdFb + n ∧
      (0 ≤ s.slack runs → n = disWidth ∧ 0 ≤ s'.slack runs') := by
  induction fuel generalizing disWidth s runs colours with
  | zero => cases hrow
  | succ fuel ih =>
    rw [Plot.plotRow] at hrow
    by_cases hend : disWidth = 0 ∨ s.photoSize < 0
    · rw [if_pos hend] at hrow
      obtain rfl := Option.some.inj hrow
      refine ⟨0, Nat.zero_le _, runs, by simpa using h, by simp, by simp, fun hslack => ⟨?_, hslack⟩⟩
      unfold slack at hslack
      omega
    · rw [if_neg hend] at hrow
      obtain ⟨hpos, runs₁, hfed, hstores, hslack⟩ :=
        h.turn (by omega : 0 < disWidth) hle
      set w := min s.compressCount disWidth with hw
      obtain ⟨n, hn, runs', hfed', hstores', hlcd, hrest⟩ :=
        ih hfed (by rw [length_drop]; omega) hrow
      have hpainted : ((s.paint w).consume src w).lcdFb = s.lcdFb + w := by
        rw [lcdFb_consume]
        rfl
      refine ⟨w + n, by omega, runs', by rwa [drop_drop] at hfed', ?_, ?_, fun hs => ?_⟩
      · rw [hstores', stores_consume, hstores, hpainted, take_add, place_append,
          append_assoc, length_take, Nat.min_eq_left (by omega)]
      · rw [hlcd, hpainted]
        push_cast
        ring
      · obtain ⟨hall, hslack'⟩ := hrest (hs.trans hslack)
        exact ⟨by omega, hslack'⟩

theorem Fed.plotRow_isSome (hle : disWidth ≤ colours.length) (hfuel : disWidth < fuel) :
    ∃ s', s.plotRow src fuel disWidth = some s' := by
  induction fuel generalizing disWidth s runs colours with
  | zero => omega
  | succ fuel ih =>
    rw [Plot.plotRow]
    by_cases hend : disWidth = 0 ∨ s.photoSize < 0
    · exact ⟨s, if_pos hend⟩
    · rw [if_neg hend]
      obtain ⟨hpos, runs', hfed, -⟩ := h.turn (by omega : 0 < disWidth) hle
      exact ih hfed (by rw [length_drop]; omega) (by omega)

/-! ## Rows -/

theorem Fed.margin (width : Int) : Fed src (s.margin width) runs colours := by
  refine ⟨?_, h.positive, h.expand_eq⟩
  have hfeeds := h.feeds
  cases runs with
  | nil => trivial
  | cons run runs => exact hfeeds

end

theorem plotRows_succ (he : 0 ≤ ewidth) (disHeight : Nat) (s : Plot) :
    s.plotRows src fuel width ewidth (disHeight + 1) =
      ((s.margin ewidth).plotRow src fuel width).bind fun s' =>
        (s'.margin ewidth).plotRows src fuel width ewidth disHeight := by
  rw [plotRows]
  by_cases hpos : ewidth > 0
  · simp only [if_pos hpos]
    rfl
  · obtain rfl : ewidth = 0 := by omega
    have hmargin (s : Plot) : s.margin 0 = s := by simp [Plot.margin]
    simp only [lt_irrefl, if_false, hmargin]
    cases fuel with
    | zero => rfl
    | succ fuel =>
      refine congrArg _ (funext fun s' => ?_)
      simp [skip]

end Plot

def placeRows (ptr pitch : Int) : List (List UInt16) → List Store
  | [] => []
  | row :: rows => place ptr row ++ placeRows (ptr + pitch) pitch rows

namespace Plot

theorem Fed.plotRows (he : 0 ≤ ewidth) (hrows : ∀ row ∈ rows, row.length = width)
    (h : Fed src s runs rows.flatten) (hslack : 0 ≤ s.slack runs)
    (hplots : s.plotRows src fuel width ewidth rows.length = some s') :
    s'.stores = s.stores ++ placeRows (s.lcdFb + ewidth) (width + 2 * ewidth) rows := by
  induction rows generalizing s runs with
  | nil =>
    obtain rfl := Option.some.inj hplots
    simp [placeRows]
  | cons row rows ih =>
    have hrow : row.length = width := hrows row mem_cons_self
    have hle : width ≤ ((row :: rows).flatten).length := by simp [hrow]
    rw [length_cons, plotRows_succ he] at hplots
    obtain ⟨s₁, hplot, hrest⟩ := Option.bind_eq_some_iff.mp hplots
    obtain ⟨n, -, runs₁, hfed, hstores, hlcd, hall⟩ := (h.margin ewidth).plotRow hle hplot
    obtain ⟨rfl, hslack₁⟩ := hall hslack
    rw [flatten_cons, ← hrow, take_left] at hstores
    rw [flatten_cons, ← hrow, drop_left] at hfed
    have hstores' := ih (fun r hr => hrows r (mem_cons_of_mem _ hr)) (hfed.margin ewidth)
      hslack₁ hrest
    have hptr : (s₁.margin ewidth).lcdFb + ewidth = s.lcdFb + ewidth + (n + 2 * ewidth) := by
      simp only [Plot.margin] at hlcd ⊢
      rw [hlcd]
      ring
    rw [hstores', hptr, placeRows, ← append_assoc]
    congr 1

theorem Fed.plotRows_isSome (he : 0 ≤ ewidth) (hfuel : width < fuel) (h : Fed src s runs colours)
    (hle : disHeight * width ≤ colours.length) :
    ∃ s', s.plotRows src fuel width ewidth disHeight = some s' := by
  induction disHeight generalizing s runs colours with
  | zero => exact ⟨s, rfl⟩
  | succ disHeight ih =>
    rw [Nat.succ_mul] at hle
    obtain ⟨s₁, hplot⟩ := (h.margin ewidth).plotRow_isSome (by omega) hfuel
    obtain ⟨n, hn, runs₁, hfed, -⟩ := (h.margin ewidth).plotRow (by omega) hplot
    rw [plotRows_succ he, hplot]
    exact ih (hfed.margin ewidth) (by rw [length_drop]; omega)

structure Upwards (s : Plot) : Prop where
  pairwise : s.stores.Pairwise (·.1 < ·.1)
  below : ∀ store ∈ s.stores, store.1 < s.lcdFb

theorem Upwards.margin (he : 0 ≤ ewidth) (h : Upwards s) : Upwards (s.margin ewidth) := by
  refine ⟨h.pairwise, fun store hstore => ?_⟩
  have := h.below store hstore
  simp only [Plot.margin]
  omega

theorem Upwards.painted (h : Upwards s) (hstores : s'.stores = s.stores ++ place s.lcdFb colours)
    (hlcd : s'.lcdFb = s.lcdFb + colours.length) : Upwards s' := by
  constructor
  · rw [hstores]
    refine pairwise_append.mpr ⟨h.pairwise, pairwise_place .., fun a ha b hb => ?_⟩
    exact (h.below a ha).trans_le (place_bounds hb).1
  · intro store hstore
    rw [hstores] at hstore
    rw [hlcd]
    obtain hold | hnew := mem_append.mp hstore
    · have := h.below store hold
      omega
    · exact (place_bounds hnew).2

theorem Fed.plotRows_upwards (he : 0 ≤ ewidth) (h : Fed src s runs colours)
    (hle : disHeight * width ≤ colours.length) (hup : Upwards s)
    (hrows : s.plotRows src fuel width ewidth disHeight = some s') :
    Upwards s' ∧ ∃ n, s'.stores.map Prod.snd = s.stores.map Prod.snd ++ colours.take n := by
  induction disHeight generalizing s runs colours with
  | zero =>
    obtain rfl := Option.some.inj hrows
    exact ⟨hup, 0, by simp⟩
  | succ disHeight ih =>
    rw [plotRows_succ he] at hrows
    obtain ⟨s₁, hplot, hrest⟩ := Option.bind_eq_some_iff.mp hrows
    rw [Nat.succ_mul] at hle
    obtain ⟨n, hn, runs₁, hfed, hstores, hlcd, -⟩ := (h.margin ewidth).plotRow (by omega) hplot
    have hlen : (colours.take n).length = n := by rw [length_take]; omega
    have hup₁ : Upwards s₁ := (hup.margin he).painted hstores (by rw [hlcd, hlen])
    obtain ⟨hup', m, hcolours⟩ := ih (hfed.margin ewidth) (by rw [length_drop]; omega)
      (hup₁.margin he) hrest
    refine ⟨hup', n + m, ?_⟩
    have hfirst : (s₁.margin ewidth).stores.map Prod.snd =
        s.stores.map Prod.snd ++ colours.take n := by
      show s₁.stores.map Prod.snd = _
      rw [hstores, map_append, map_snd_place]
      rfl
    rw [hcolours, hfirst, take_add, append_assoc]

end Plot

/-! ## Rows that are placed -/

theorem map_snd_placeRows (ptr pitch : Int) (rows : List (List UInt16)) :
    (placeRows ptr pitch rows).map Prod.snd = rows.flatten := by
  induction rows generalizing ptr with
  | nil => rfl
  | cons row rows ih => rw [placeRows, map_append, map_snd_place, ih, flatten_cons]

theorem mem_placeRows : store ∈ placeRows ptr pitch rows ↔
      ∃ (y x : Nat) (row : List UInt16), rows[y]? = some row ∧ row[x]? = some store.2 ∧
        store.1 = ptr + y * pitch + x := by
  induction rows generalizing ptr with
  | nil => simp [placeRows]
  | cons row rows ih =>
    rw [placeRows, mem_append, mem_place, ih]
    constructor
    · rintro (⟨x, hpos, hget⟩ | ⟨y, x, row', hrow, hget, hpos⟩)
      · exact ⟨0, x, row, rfl, hget, by simp [hpos]⟩
      · exact ⟨y + 1, x, row', hrow, hget, by rw [hpos]; push_cast; ring⟩
    · rintro ⟨y, x, row', hrow, hget, hpos⟩
      cases y with
      | zero =>
        obtain rfl : row = row' := by simpa using hrow
        exact .inl ⟨x, by simpa using hpos, hget⟩
      | succ y => exact .inr ⟨y, x, row', hrow, hget, by rw [hpos]; push_cast; ring⟩

theorem pairwise_placeRows {pitch : Int} {width : Nat} (hpitch : width ≤ pitch) (ptr : Int)
    (hrows : ∀ row ∈ rows, row.length = width) :
    (placeRows ptr pitch rows).Pairwise (·.1 < ·.1) := by
  induction rows generalizing ptr with
  | nil => exact List.Pairwise.nil
  | cons row rows ih =>
    have hrow : row.length = width := hrows row mem_cons_self
    refine pairwise_append.mpr ⟨pairwise_place .., ih _ fun r hr =>
      hrows r (mem_cons_of_mem _ hr), fun a ha b hb => ?_⟩
    obtain ⟨-, hlt⟩ := place_bounds ha
    obtain ⟨y, x, -, -, -, hpos⟩ := mem_placeRows.mp hb
    have hy : 0 ≤ (y : Int) * pitch := mul_nonneg (by omega) (by omega)
    omega

end UBoot.Video
