import UBoot.Lib.Updates
import UBoot.Video.RlePlot

/-!
# Logos without distortion

A logo that is no larger than the panel is to appear on it unchanged, at one place, whatever
lies around the encoded picture in memory. Where the margins differ by one, each row begins
one pixel too far to the left. `png2rle` writes no size, and its first run is taken for it.
-/

namespace UBoot.Video

open RunLength Updates
open List hiding after

def load (file : List UInt16) (around : Memory) : Memory :=
  fun k => if 0 ≤ k then (file[k.toNat]?).getD (around k) else around k

def Panel.index (panel : Panel) (x y : Nat) : Int := y * panel.vlCol + x

/-- The picture is at offset `(ox, oy)`, and nothing else has changed. -/
structure Shows (panel : Panel) (picture : Picture) (ox oy : Nat) (before after : Memory) :
    Prop where
  painted : ∀ (y x : Nat) row pixel, picture.rows[y]? = some row → row[x]? = some pixel →
    after (panel.index (ox + x) (oy + y)) = rgb565 pixel
  kept : ∀ i : Int, (∀ (y x : Nat), y < picture.height → x < picture.width →
    i ≠ panel.index (ox + x) (oy + y)) → after i = before i

def Undistorted (panel : Panel) (picture : Picture) (file : List UInt16) : Prop :=
  ∃ ox oy, ox + picture.width ≤ panel.vlCol ∧ oy + picture.height ≤ panel.vlRow ∧
    ∀ around, ∃ fuel stores, rlePlot panel (load file around) fuel = some stores ∧
      ∀ before, Shows panel picture ox oy before (updates stores before)

instance nontrivial : Nontrivial UInt16 := ⟨0, 1, by decide⟩

/-! ## The stores that show the picture -/

def shownStores (panel : Panel) (picture : Picture) (ox oy : Nat) : List Store :=
  placeRows (panel.index ox oy) panel.vlCol picture.colours

theorem mem_shownStores : store ∈ shownStores panel picture ox oy ↔
      ∃ (y x : Nat) (row : List Rgb) (pixel : Rgb), picture.rows[y]? = some row ∧
        row[x]? = some pixel ∧ store = (panel.index (ox + x) (oy + y), rgb565 pixel) := by
  have hptr (y x : Nat) : panel.index ox oy + y * panel.vlCol + x =
      panel.index (ox + x) (oy + y) := by
    simp only [Panel.index]
    push_cast
    ring
  rw [shownStores, mem_placeRows]
  simp only [hptr, Picture.colours]
  constructor
  · rintro ⟨y, x, row, hrow, hget, hpos⟩
    obtain ⟨pixels, hpixels, rfl⟩ := Option.map_eq_some_iff.mp (getElem?_map .. ▸ hrow)
    obtain ⟨pixel, hpixel, hcolour⟩ := Option.map_eq_some_iff.mp (getElem?_map .. ▸ hget)
    exact ⟨y, x, pixels, pixel, hpixels, hpixel, Prod.ext hpos hcolour.symm⟩
  · rintro ⟨y, x, row, pixel, hrow, hpixel, rfl⟩
    exact ⟨y, x, row.map rgb565, by simp [hrow], by simp [hpixel], rfl⟩

theorem length_colours {picture : Picture} : ∀ row ∈ picture.colours, row.length = picture.width := by
  intro row hrow
  obtain ⟨pixels, hpixels, rfl⟩ := mem_map.mp hrow
  rw [length_map, picture.length_eq pixels hpixels]

theorem length_flatten_colours (picture : Picture) :
    picture.colours.flatten.length = picture.height * picture.width := by
  have hmap : picture.colours.map length = replicate picture.height picture.width := by
    refine eq_replicate_iff.mpr ⟨by simp [Picture.colours, Picture.height], fun n hn => ?_⟩
    obtain ⟨row, hrow, rfl⟩ := mem_map.mp hn
    exact length_colours row hrow
  rw [length_flatten, hmap, sum_replicate, smul_eq_mul]

theorem Picture.area_pos (picture : Picture) : 0 < picture.height * picture.width :=
  Nat.mul_pos (length_pos_of_ne_nil picture.rows_ne_nil) picture.width_pos

theorem pairwise_shownStores (hw : picture.width ≤ panel.vlCol) (ox oy : Nat) :
    (shownStores panel picture ox oy).Pairwise (·.1 < ·.1) :=
  pairwise_placeRows (by exact_mod_cast hw) _ length_colours

theorem shows_iff (hw : picture.width ≤ panel.vlCol) :
    Shows panel picture ox oy before after ↔
      after = updates (shownStores panel picture ox oy) before := by
  have hnodup : ((shownStores panel picture ox oy).map Prod.fst).Nodup :=
    (List.pairwise_map.mpr (pairwise_shownStores hw ox oy)).imp fun h => h.ne
  constructor
  · intro h
    funext i
    by_cases hi : ∃ store ∈ shownStores panel picture ox oy, store.1 = i
    · obtain ⟨store, hstore, rfl⟩ := hi
      rw [updates_of_mem hnodup hstore]
      obtain ⟨y, x, row, pixel, hrow, hpixel, rfl⟩ := mem_shownStores.mp hstore
      exact h.painted y x row pixel hrow hpixel
    · push Not at hi
      rw [updates_of_not_mem hi]
      refine h.kept i fun y x hy hx heq => ?_
      have hrow := List.getElem?_eq_getElem hy
      have hlen := picture.length_eq _ (List.getElem_mem hy)
      have hpixel := List.getElem?_eq_getElem (hlen ▸ hx)
      exact hi _ (mem_shownStores.mpr ⟨y, x, _, _, hrow, hpixel, rfl⟩) heq.symm
  · rintro rfl
    constructor
    · intro y x row pixel hrow hpixel
      exact updates_of_mem hnodup (mem_shownStores.mpr ⟨y, x, row, pixel, hrow, hpixel, rfl⟩) before
    · intro i hi
      refine updates_of_not_mem (fun store hstore heq => ?_) before
      obtain ⟨y, x, row, pixel, hrow, hpixel, rfl⟩ := mem_shownStores.mp hstore
      obtain ⟨hy, hrow⟩ := List.getElem?_eq_some_iff.mp hrow
      obtain ⟨hx, -⟩ := List.getElem?_eq_some_iff.mp hpixel
      have hlen := picture.length_eq row (hrow ▸ List.getElem_mem hy)
      exact hi y x hy (hlen ▸ hx) heq.symm

theorem eq_shownStores (hw : picture.width ≤ panel.vlCol)
    (hup : stores.Pairwise (·.1 < ·.1))
    (h : ∀ before, Shows panel picture ox oy before (updates stores before)) :
    stores = shownStores panel picture ox oy :=
  eq_of_updates_eq (pairwise_map.mpr hup) (pairwise_map.mpr (pairwise_shownStores hw ox oy))
    fun before => (shows_iff hw).mp (h before)

/-! ## Files in memory -/

theorem load_eq {around : Memory} {k : Nat} {unit : UInt16} (h : file[k]? = some unit) :
    load file around k = unit := by
  simp [load, h]

theorem load_of_le {file : List UInt16} (around : Memory) (h : file.length ≤ k) :
    load file around k = around k := by
  simp [load, getElem?_eq_none h]

theorem stored_load (header : List UInt16) {runs : List (Run UInt16)} (h : Sized runs)
    (around : Memory) :
    Stored (load (header ++ runs.flatMap putRun) around) header.length runs := by
  induction runs generalizing header with
  | nil => trivial
  | cons run runs ih =>
    have hfile : header ++ (run :: runs).flatMap putRun =
        (header ++ putRun run) ++ runs.flatMap putRun := by simp
    have hcount : (header ++ (run :: runs).flatMap putRun)[header.length]? =
        some (UInt16.ofNat run.1) := by simp [putRun]
    have hcolour : (header ++ (run :: runs).flatMap putRun)[header.length + 1]? = some run.2 := by
      rw [getElem?_append_right (by omega)]
      simp [putRun]
    refine ⟨?_, ?_, ?_⟩
    · rw [load_eq hcount]
      exact UInt16.toNat_ofNat_of_lt (h run mem_cons_self).2
    · exact_mod_cast load_eq hcolour
    · have hrest := ih (header ++ putRun run) fun r hr => h r (mem_cons_of_mem _ hr)
      rw [hfile]
      convert hrest using 1
      simp [putRun]

theorem length_putRuns (runs : List (Run UInt16)) :
    (runs.flatMap putRun).length = 2 * runs.length := by
  induction runs with
  | nil => rfl
  | cons run runs ih =>
    rw [flatMap_cons, length_append, ih, length_cons]
    simp only [putRun, length_cons, length_nil]
    ring

/-! ## A picture no larger than the panel -/

section
variable {panel : Panel} {picture : Picture}

structure Fits (panel : Panel) (picture : Picture) (file : List UInt16) : Prop where
  width_le : picture.width ≤ panel.vlCol
  height_le : picture.height ≤ panel.vlRow
  memory : 2 * (panel.vlCol * panel.vlRow) + 2 * file.length ≤ 2 ^ 32

def start (panel : Panel) (picture : Picture) (src : Memory) : Plot where
  photoPtr := 4
  photoSize := photoSizeOf src
  compressCount := (src 4).toNat
  compressVal := src 5
  lcdFb := ((panel.vlRow - picture.height) / 2 : Nat) * panel.vlCol
  stores := []

theorem bmod_eq_self (hlow : -2 ^ 31 ≤ x) (h : x < 2 ^ 31) : x.bmod (2 ^ 32) = x := by
  apply Int.bmod_eq_of_le <;> norm_num <;> omega

theorem rlePlot_eq (hfits : Fits panel picture file) (hwidth : (src 0).toNat = picture.width)
    (hheight : (src 1).toNat = picture.height) (fuel : Nat) : rlePlot panel src fuel =
      if photoSizeOf src > 0 then
        ((start panel picture src).plotRows src fuel picture.width
          ((panel.vlCol - picture.width) / 2 : Nat) picture.height).map Plot.stores
      else some [] := by
  obtain ⟨hw, hh, hmemory⟩ := hfits
  have harea : picture.width * picture.height ≤ panel.vlCol * panel.vlRow := Nat.mul_le_mul hw hh
  have hflag : (((src 0).toNat * (src 1).toNat : Int) - panel.vlCol * panel.vlRow).bmod (2 ^ 32) ≤
      0 := by
    rw [hwidth, hheight]
    have hpos : 0 ≤ (picture.width : Int) * picture.height := by positivity
    zify at harea hmemory
    rw [bmod_eq_self (by omega) (by omega)]
    omega
  have hewidth : ((panel.vlCol : Int) - picture.width).tdiv 2 =
      ((panel.vlCol - picture.width) / 2 : Nat) := by
    rw [Int.tdiv_eq_ediv_of_nonneg (by omega)]
    omega
  have heheight : ((panel.vlRow : Int) - picture.height).tdiv 2 =
      ((panel.vlRow - picture.height) / 2 : Nat) := by
    rw [Int.tdiv_eq_ediv_of_nonneg (by omega)]
    omega
  rw [rlePlot, if_pos hflag, rlePlotSmaller]
  simp only [hwidth, hheight, hewidth, heheight, Nat.min_eq_left hw, Nat.min_eq_left hh]
  have hstart : (if ((panel.vlRow - picture.height) / 2 : Nat) > (0 : Int) then
      (⟨4, photoSizeOf src, (src 4).toNat, src 5, 0, []⟩ : Plot).margin
        (((panel.vlRow - picture.height) / 2 : Nat) * panel.vlCol)
      else ⟨4, photoSizeOf src, (src 4).toNat, src 5, 0, []⟩) = start panel picture src := by
    split_ifs with hpos
    · simp [Plot.margin, start]
    · have hzero : (panel.vlRow - picture.height) / 2 = 0 := by omega
      simp [start, hzero]
  rw [hstart]

theorem start_feeds (h : Stored src 4 runs) :
    (start panel picture src).Feeds src runs := by
  cases runs with
  | nil => trivial
  | cons run runs => exact h

theorem start_upwards (panel : Panel) (picture : Picture) (src : Memory) :
    (start panel picture src).Upwards :=
  ⟨List.Pairwise.nil, fun _ h => nomatch h⟩

/-! ## JPEG -/

theorem Fits.sizes (h : Fits panel picture file) : picture.width < 65536 ∧ picture.height < 65536 :=
  ⟨lt_of_le_of_lt h.width_le panel.vlCol_lt, lt_of_le_of_lt h.height_le panel.vlRow_lt⟩

theorem photoSizeOf_eq (hlow : src 2 = UInt16.ofNat outsize)
    (hhigh : src 3 = UInt16.ofNat (outsize >>> 16)) :
    photoSizeOf src = (outsize : Int).bmod (2 ^ 32) := by
  have hlt : (UInt16.ofNat outsize).toNat < 2 ^ 16 := UInt16.toNat_lt _
  have hsum : (src 3).toNat <<< 16 ||| (src 2).toNat = outsize % 2 ^ 32 := by
    rw [hlow, hhigh, ← Nat.shiftLeft_add_eq_or_of_lt hlt, Nat.shiftLeft_eq,
      Nat.shiftRight_eq_div_pow]
    simp only [UInt16.toNat_ofNat']
    omega
  unfold photoSizeOf
  rw [hsum, Int.natCast_mod, Int.emod_bmod]

theorem jpeg_loaded (hfits : Fits panel picture (jpeg2rle picture)) (around : Memory) :
    let src := load (jpeg2rle picture) around
    (src 0).toNat = picture.width ∧ (src 1).toNat = picture.height ∧
      photoSizeOf src = ((4 * (jpegRuns picture).length : Nat) : Int).bmod (2 ^ 32) ∧
      (start panel picture src).Fed src (jpegRuns picture) picture.colours.flatten := by
  obtain ⟨hw, hh⟩ := hfits.sizes
  have hsized := sized_jpegRuns hw
  have hstored := stored_load [UInt16.ofNat picture.width, UInt16.ofNat picture.height,
    UInt16.ofNat (2 * ((jpegRuns picture).flatMap putRun).length),
    UInt16.ofNat ((2 * ((jpegRuns picture).flatMap putRun).length) >>> 16)] hsized around
  have hlength : 2 * ((jpegRuns picture).flatMap putRun).length = 4 * (jpegRuns picture).length := by
    rw [length_putRuns]
    ring
  refine ⟨?_, ?_, ?_, start_feeds hstored, hsized.positive, expand_jpegRuns picture⟩
  · have hget : (jpeg2rle picture)[0]? = some (UInt16.ofNat picture.width) := rfl
    exact (congrArg UInt16.toNat (load_eq hget)).trans (UInt16.toNat_ofNat_of_lt hw)
  · have hget : (jpeg2rle picture)[1]? = some (UInt16.ofNat picture.height) := rfl
    exact (congrArg UInt16.toNat (load_eq hget)).trans (UInt16.toNat_ofNat_of_lt hh)
  · rw [← hlength]
    have hlow : (jpeg2rle picture)[2]? =
        some (UInt16.ofNat (2 * ((jpegRuns picture).flatMap putRun).length)) := rfl
    have hhigh : (jpeg2rle picture)[3]? =
        some (UInt16.ofNat ((2 * ((jpegRuns picture).flatMap putRun).length) >>> 16)) := rfl
    exact photoSizeOf_eq (load_eq hlow) (load_eq hhigh)

theorem jpegRuns_pos (picture : Picture) : 0 < (jpegRuns picture).length := by
  have hexpand := congrArg length (expand_jpegRuns picture)
  rw [length_flatten_colours] at hexpand
  have hpos : 0 < picture.height * picture.width := picture.area_pos
  by_contra hnone
  have hnil : jpegRuns picture = [] := length_eq_zero_iff.mp (by omega)
  rw [hnil, expand_nil, length_nil] at hexpand
  omega

section
variable (hfits : Fits panel picture (jpeg2rle picture))
include hfits

theorem rlePlot_jpeg (hsize : 4 * (jpegRuns picture).length < 2 ^ 31) (around : Memory)
    {stores : List Store} (h : rlePlot panel (load (jpeg2rle picture) around) fuel = some stores) :
    stores = placeRows
      (panel.index ((panel.vlCol - picture.width) / 2) ((panel.vlRow - picture.height) / 2))
      (picture.width + 2 * ((panel.vlCol - picture.width) / 2 : Nat)) picture.colours := by
  obtain ⟨hwidth, hheight, hphoto, hfed⟩ := jpeg_loaded hfits around
  have hpos := jpegRuns_pos picture
  rw [bmod_eq_self (by omega) (by omega)] at hphoto
  rw [rlePlot_eq hfits hwidth hheight, if_pos (by rw [hphoto]; omega)] at h
  obtain ⟨s, hplots, rfl⟩ := Option.map_eq_some_iff.mp h
  have hheight' : picture.height = picture.colours.length := (length_map _).symm
  rw [hheight'] at hplots
  have hslack : 0 ≤ (start panel picture (load (jpeg2rle picture) around)).slack
      (jpegRuns picture) := by
    simp only [Plot.slack, start, hphoto]
    omega
  have hstores := hfed.plotRows (by omega) length_colours hslack hplots
  simpa [start, Panel.index] using hstores

theorem rlePlot_jpeg_isSome (around : Memory) :
    ∃ fuel stores, rlePlot panel (load (jpeg2rle picture) around) fuel = some stores := by
  obtain ⟨hwidth, hheight, -, hfed⟩ := jpeg_loaded hfits around
  refine ⟨picture.width + 1, ?_⟩
  rw [rlePlot_eq hfits hwidth hheight]
  split_ifs with hphoto
  · have hle : picture.height * picture.width ≤ picture.colours.flatten.length :=
      (length_flatten_colours picture).ge
    obtain ⟨s, hs⟩ := hfed.plotRows_isSome
      (Int.natCast_nonneg ((panel.vlCol - picture.width) / 2)) (Nat.lt_succ_self _) hle
    exact ⟨s.stores, by rw [hs]; rfl⟩
  · exact ⟨[], rfl⟩

theorem rlePlot_jpeg_of_size (hsize : ¬ 4 * (jpegRuns picture).length < 2 ^ 31) (around : Memory)
    (fuel : Nat) : rlePlot panel (load (jpeg2rle picture) around) fuel = some [] := by
  obtain ⟨hwidth, hheight, hphoto, -⟩ := jpeg_loaded hfits around
  have hlength : (jpeg2rle picture).length = 4 + 2 * (jpegRuns picture).length := by
    rw [jpeg2rle, length_append, length_putRuns]
    rfl
  have hmemory := hfits.memory
  rw [hlength] at hmemory
  have hneg : ((4 * (jpegRuns picture).length : Nat) : Int).bmod (2 ^ 32) < 0 := by
    rw [← Int.sub_bmod_right, bmod_eq_self] <;> push_cast <;> omega
  rw [rlePlot_eq hfits hwidth hheight, if_neg (by rw [hphoto]; omega)]

end

/-! ## PNG -/

def behind (colour : UInt16) : Memory := fun k => if k % 2 = 0 then 65535 else colour

theorem stored_behind {file : List UInt16} (colour : UInt16) (n : Nat) {ptr : Nat}
    (hptr : ptr % 2 = 0) (hle : file.length ≤ ptr) :
    Stored (load file (behind colour)) ptr (List.replicate n (65535, colour)) := by
  induction n generalizing ptr with
  | zero => trivial
  | succ n ih =>
    rw [replicate_succ]
    refine ⟨?_, ?_, ?_⟩
    · rw [load_of_le _ hle, behind, if_pos (by omega)]
      rfl
    · have hnext := load_of_le (behind colour) (by omega : file.length ≤ ptr + 1)
      rw [behind, if_neg (by omega)] at hnext
      exact_mod_cast hnext
    · exact_mod_cast ih (by omega : (ptr + 2) % 2 = 0) (by omega)

theorem rlePlot_png (hfits : Fits panel picture (png2rle picture)) {rest : List (Run UInt16)}
    (hruns : pngRuns picture = first :: rest) (colour : UInt16) {stores : List Store}
    (h : rlePlot panel (load (png2rle picture) (behind colour)) fuel = some stores) :
    stores.Pairwise (·.1 < ·.1) ∧
      ∃ n m, stores.map Prod.snd = (expand rest ++ List.replicate m colour).take n := by
  obtain ⟨hw, hh⟩ := hfits.sizes
  obtain ⟨-, hsized⟩ := pngRuns_spec picture
  rw [hruns] at hsized
  have hrest : Sized rest := fun run hrun => hsized run (mem_cons_of_mem _ hrun)
  have hfile : png2rle picture =
      [UInt16.ofNat picture.width, UInt16.ofNat picture.height, UInt16.ofNat first.1, first.2] ++
        rest.flatMap putRun := by
    rw [png2rle, hruns]
    rfl
  have hlength : (png2rle picture).length = 4 + 2 * rest.length := by
    rw [hfile, length_append, length_putRuns]
    rfl
  have hwidth : (load (png2rle picture) (behind colour) 0).toNat = picture.width := by
    have hget : (png2rle picture)[0]? = some (UInt16.ofNat picture.width) := rfl
    exact (congrArg UInt16.toNat (load_eq hget)).trans (UInt16.toNat_ofNat_of_lt hw)
  have hheight : (load (png2rle picture) (behind colour) 1).toNat = picture.height := by
    have hget : (png2rle picture)[1]? = some (UInt16.ofNat picture.height) := rfl
    exact (congrArg UInt16.toNat (load_eq hget)).trans (UInt16.toNat_ofNat_of_lt hh)
  rw [rlePlot_eq hfits hwidth hheight] at h
  split_ifs at h with hphoto
  · obtain ⟨s, hplots, rfl⟩ := Option.map_eq_some_iff.mp h
    let more : List (Run UInt16) := replicate (picture.height * picture.width) (65535, colour)
    have hstored : Stored (load (png2rle picture) (behind colour)) 4 (rest ++ more) := by
      refine Stored.append ?_ ?_
      · rw [hfile]
        exact stored_load _ hrest _
      · exact_mod_cast stored_behind colour _ (by omega : (4 + 2 * rest.length) % 2 = 0) hlength.le
    have hmore : expand more =
        replicate (picture.height * picture.width * 65535) colour := expand_replicate ..
    have hfed : (start panel picture (load (png2rle picture) (behind colour))).Fed
        (load (png2rle picture) (behind colour)) (rest ++ more) (expand rest ++ expand more) := by
      refine ⟨start_feeds hstored, ?_, expand_append ..⟩
      intro run hrun
      obtain hrun | hrun := mem_append.mp hrun
      · exact (hrest run hrun).1
      · rw [eq_of_mem_replicate hrun]
        exact Nat.succ_pos _
    have hle : picture.height * picture.width ≤ (expand rest ++ expand more).length := by
      rw [hmore, length_append, length_replicate]
      omega
    obtain ⟨hup, n, hcolours⟩ := hfed.plotRows_upwards
      (Int.natCast_nonneg ((panel.vlCol - picture.width) / 2)) hle (start_upwards ..) hplots
    refine ⟨hup.pairwise, n, picture.height * picture.width * 65535, ?_⟩
    rw [hcolours, hmore]
    rfl
  · obtain rfl := Option.some.inj h
    exact ⟨List.Pairwise.nil, 0, 0, rfl⟩

theorem not_undistorted_png (hfits : Fits panel picture (png2rle picture)) :
    ¬ Undistorted panel picture (png2rle picture) := by
  rintro ⟨ox, oy, -, -, h⟩
  obtain ⟨hexpand, hsized⟩ := pngRuns_spec picture
  have hpos : 0 < (expand (pngRuns picture)).length := by
    rw [hexpand, length_flatten_colours]
    exact picture.area_pos
  obtain ⟨first, rest, hruns⟩ := expand_ne_nil (ne_nil_of_length_pos hpos)
  have hfirst : 0 < first.1 := (hsized first (hruns ▸ mem_cons_self)).1
  rw [hruns, expand_cons] at hexpand
  obtain ⟨colour, hcolour⟩ := exists_ne (picture.colours.flatten[(expand rest).length]?.getD 0)
  obtain ⟨fuel, stores, hplot, hshows⟩ := h (behind colour)
  obtain ⟨hup, n, m, hpainted⟩ := rlePlot_png hfits hruns colour hplot
  rw [eq_shownStores hfits.width_le hup hshows, shownStores, map_snd_placeRows] at hpainted
  have hlt : (expand rest).length < picture.colours.flatten.length := by
    rw [← hexpand, length_append, length_replicate]
    omega
  have hstarts : picture.colours.flatten <+: expand rest ++ replicate m colour :=
    hpainted ▸ take_prefix ..
  have hget : picture.colours.flatten[(expand rest).length] = colour := by
    rw [hstarts.getElem hlt, getElem_append_right (Nat.le_refl _), getElem_replicate]
  rw [getElem?_eq_getElem hlt, hget] at hcolour
  exact hcolour rfl

/-! ## The condition -/

theorem placeRows_inj (hrow : row ≠ [])
    (h : placeRows ptr pitch (row :: rows) = placeRows ptr' pitch' (row :: rows)) :
    ptr = ptr' ∧ placeRows (ptr + pitch) pitch rows = placeRows (ptr' + pitch') pitch' rows := by
  have hlength (p q : Int) : (place p row).length = (place q row).length := by
    rw [← length_map Prod.snd, map_snd_place, ← length_map Prod.snd, map_snd_place]
  obtain ⟨hfirst, hrest⟩ := append_inj h (hlength ..)
  obtain ⟨colour, colours, rfl⟩ := exists_cons_of_ne_nil hrow
  exact ⟨congrArg Prod.fst (cons.inj hfirst).1, hrest⟩

theorem undistorted_jpeg_iff (hfits : Fits panel picture (jpeg2rle picture)) :
    Undistorted panel picture (jpeg2rle picture) ↔
      (2 ∣ panel.vlCol - picture.width ∨ picture.height = 1) ∧
        4 * (jpegRuns picture).length < 2 ^ 31 := by
  have hw := hfits.width_le
  have hh := hfits.height_le
  constructor
  · rintro ⟨ox, oy, -, -, h⟩
    obtain ⟨fuel, stores, hplot, hshows⟩ := h fun _ => 0
    have hsize : 4 * (jpegRuns picture).length < 2 ^ 31 := by
      by_contra hsize
      rw [rlePlot_jpeg_of_size hfits hsize] at hplot
      obtain rfl := Option.some.inj hplot
      have hnone := congrArg (map Prod.snd) (eq_shownStores hw List.Pairwise.nil hshows)
      rw [shownStores, map_snd_placeRows] at hnone
      have hlength := length_flatten_colours picture
      have hpos := picture.area_pos
      rw [← hnone, map_nil, length_nil] at hlength
      omega
    refine ⟨?_, hsize⟩
    obtain rfl := rlePlot_jpeg hfits hsize _ hplot
    have hshown := eq_shownStores hw (pairwise_placeRows (by omega) _ length_colours) hshows
    have hlength : picture.colours.length = picture.height := length_map _
    have hne (row : List UInt16) (hrow : row ∈ picture.colours) : row ≠ [] := by
      rintro rfl
      have := length_colours _ hrow
      have := picture.width_pos
      simp_all
    rcases hcolours : picture.colours with _ | ⟨row, _ | ⟨next, rows⟩⟩
    · rw [hcolours] at hlength
      exact absurd hlength (length_pos_of_ne_nil picture.rows_ne_nil).ne
    · rw [hcolours] at hlength
      exact .inr hlength.symm
    · -- The second row is as far from the first one as it should be.
      rw [shownStores, hcolours] at hshown
      obtain ⟨hptr, hrest⟩ := placeRows_inj (hne row (by simp [hcolours])) hshown
      obtain ⟨hnext, -⟩ := placeRows_inj (hne next (by simp [hcolours])) hrest
      omega
  · rintro ⟨hmargin, hsize⟩
    refine ⟨(panel.vlCol - picture.width) / 2, (panel.vlRow - picture.height) / 2, by omega,
      by omega, fun around => ?_⟩
    obtain ⟨fuel, stores, hplot⟩ := rlePlot_jpeg_isSome hfits around
    refine ⟨fuel, stores, hplot, fun before => (shows_iff hw).mpr ?_⟩
    rw [rlePlot_jpeg hfits hsize around hplot, shownStores]
    obtain heven | hone := hmargin
    · have hpitch : (picture.width : Int) + 2 * ((panel.vlCol - picture.width) / 2 : Nat) =
          panel.vlCol := by omega
      rw [hpitch]
    · obtain ⟨row, hrow⟩ : ∃ row, picture.colours = [row] :=
        length_eq_one_iff.mp ((length_map _).trans hone)
      rw [hrow]
      rfl

end

/-- A logo no larger than the panel is shown undistorted iff it comes from `jpeg2rle`, its margins
are equal or it has one row, and the size of its runs is positive as an `int`. -/
theorem rlePlot_undistorted_iff (panel : Panel) (picture : Picture) (encoder : Encoder)
    (hfits : Fits panel picture (encoder.encode picture)) :
    Undistorted panel picture (encoder.encode picture) ↔
      encoder = .jpeg ∧ (2 ∣ panel.vlCol - picture.width ∨ picture.height = 1) ∧
        4 * (jpegRuns picture).length < 2 ^ 31 := by
  cases encoder with
  | jpeg =>
    rw [and_iff_right rfl]
    exact undistorted_jpeg_iff hfits
  | png => exact iff_of_false (not_undistorted_png hfits) fun h => nomatch h.1

def twoRows : Picture where
  width := 1
  rows := [[⟨255, 255, 255⟩], [⟨0, 0, 0⟩]]
  width_pos := by decide
  rows_ne_nil := by decide
  length_eq := by decide

theorem jpegRuns_twoRows : jpegRuns twoRows = [(1, 65535), (1, 0)] := by
  have hwhite : to565 ⟨255, 255, 255⟩ = 65535 := by decide
  have hblack : to565 ⟨0, 0, 0⟩ = 0 := by decide
  simp [jpegRuns, twoRows, putScanlineToFile, hwhite, hblack]

def square (side : Nat) (h : side < 2 ^ 16) : Panel := ⟨side, side, h, h⟩

theorem twoRows_undistorted :
    Undistorted (square 3 (by decide)) twoRows (Encoder.jpeg.encode twoRows) := by
  have hruns := jpegRuns_twoRows
  refine (rlePlot_undistorted_iff _ _ .jpeg ⟨by decide, by decide, ?_⟩).mpr ⟨rfl, .inl ?_, ?_⟩
  · simp [Encoder.encode, jpeg2rle, hruns, putRun, square]
  · decide
  · rw [hruns]
    decide

/-- On a panel that is one pixel wider than the picture, the second row is skewed; and after
`png2rle` both rows are wrong. -/
theorem twoRows_distorted :
    ¬ Undistorted (square 2 (by decide)) twoRows (jpeg2rle twoRows) ∧
      ¬ Undistorted (square 3 (by decide)) twoRows (png2rle twoRows) := by
  have hruns := jpegRuns_twoRows
  constructor
  · have hfits : Fits (square 2 (by decide)) twoRows (jpeg2rle twoRows) :=
      ⟨by decide, by decide, by simp [jpeg2rle, hruns, putRun, square]⟩
    rw [undistorted_jpeg_iff hfits]
    decide
  · exact not_undistorted_png ⟨by decide, by decide, by decide⟩

end UBoot.Video
