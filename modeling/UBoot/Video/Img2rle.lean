import UBoot.Lib.RunLength

/-!
# Logos as files

The two encoders of `tools/ingenic-tools/img2rle.c`. A file is a list of units of 16 bits. The
picture is given by rows: three bytes for each pixel of a JPEG file, four for one of a PNG
file, of which the last is not looked at.
-/

namespace UBoot.Video

open RunLength List

structure Rgb where
  r : UInt8
  g : UInt8
  b : UInt8
  deriving DecidableEq

def to565 (p : Rgb) : UInt16 :=
  ((p.r.toUInt16 >>> 3) <<< 11) ||| ((p.g.toUInt16 >>> 2) <<< 5) ||| (p.b.toUInt16 >>> 3)

structure Picture where
  width : Nat
  rows : List (List Rgb)
  width_pos : 0 < width
  rows_ne_nil : rows ≠ []
  length_eq : ∀ row ∈ rows, row.length = width

def Picture.height (picture : Picture) : Nat := picture.rows.length

def putRun (run : Run UInt16) : List UInt16 := [UInt16.ofNat run.1, run.2]

/-! ## JPEG -/

def putScanlineToFile : List Rgb → List (Run UInt16)
  | [] => []
  | pixel :: pixels =>
    let n := (pixels.takeWhile (pixel = ·)).length
    (n + 1, to565 pixel) :: putScanlineToFile (pixels.drop n)
termination_by pixels => pixels.length
decreasing_by simp

def jpegRuns (picture : Picture) : List (Run UInt16) := picture.rows.flatMap putScanlineToFile

def jpeg2rle (picture : Picture) : List UInt16 :=
  let body := (jpegRuns picture).flatMap putRun
  let outsize := 2 * body.length
  [UInt16.ofNat picture.width, UInt16.ofNat picture.height, UInt16.ofNat outsize,
    UInt16.ofNat (outsize >>> 16)] ++ body

/-! ## PNG -/

structure PngState where
  written : List (Run UInt16)
  count : Nat
  last : UInt16

def pngPixel (s : PngState) (pixel : Rgb) : PngState :=
  let color := to565 pixel
  if s.count ≠ 0 then
    if color = s.last ∧ s.count ≠ 65535 then { s with count := s.count + 1 }
    else ⟨s.written ++ [(s.count, s.last)], 1, color⟩
  else { s with last := color, count := 1 }

def PngState.runs (s : PngState) : List (Run UInt16) :=
  if s.count ≠ 0 then s.written ++ [(s.count, s.last)] else s.written

def pngRuns (picture : Picture) : List (Run UInt16) :=
  (picture.rows.flatten.foldl pngPixel ⟨[], 0, 0⟩).runs

def png2rle (picture : Picture) : List UInt16 :=
  [UInt16.ofNat picture.width, UInt16.ofNat picture.height] ++ (pngRuns picture).flatMap putRun

inductive Encoder
  | jpeg | png
  deriving DecidableEq

def Encoder.encode : Encoder → Picture → List UInt16
  | .jpeg => jpeg2rle
  | .png => png2rle

/-! ## The runs are the picture -/

def rgb565 (p : Rgb) : UInt16 :=
  UInt16.ofNat (p.r.toNat / 8 * 2048 + p.g.toNat / 4 * 32 + p.b.toNat / 8)

theorem to565_eq (p : Rgb) : to565 p = rgb565 p := by
  obtain ⟨r, g, b⟩ := p
  have hr := r.toNat_lt
  have hg := g.toNat_lt
  have hb := b.toNat_lt
  have hshift5 : g.toNat / 4 * 32 = (g.toNat / 4) <<< 5 := by rw [Nat.shiftLeft_eq]
  have hshift11 : r.toNat / 8 * 2048 = (r.toNat / 8) <<< 11 := by rw [Nat.shiftLeft_eq]
  -- No two of the three colours share a bit.
  have hsum : r.toNat / 8 * 2048 + g.toNat / 4 * 32 + b.toNat / 8 =
      (r.toNat / 8) <<< 11 ||| (g.toNat / 4) <<< 5 ||| b.toNat / 8 := by
    rw [Nat.or_assoc, ← Nat.shiftLeft_add_eq_or_of_lt (by omega : b.toNat / 8 < 2 ^ 5), ← hshift5,
      ← Nat.shiftLeft_add_eq_or_of_lt (by omega : g.toNat / 4 * 32 + b.toNat / 8 < 2 ^ 11),
      ← hshift11, Nat.add_assoc]
  have hred : (r.toNat >>> 3) <<< 11 % 2 ^ 16 = (r.toNat / 8) <<< 11 := by
    rw [Nat.shiftRight_eq_div_pow, ← hshift11]
    omega
  have hgreen : (g.toNat >>> 2) <<< 5 % 2 ^ 16 = (g.toNat / 4) <<< 5 := by
    rw [Nat.shiftRight_eq_div_pow, ← hshift5]
    omega
  have hblue : b.toNat >>> 3 = b.toNat / 8 := Nat.shiftRight_eq_div_pow ..
  apply UInt16.toNat_inj.mp
  calc (to565 ⟨r, g, b⟩).toNat
      = (r.toNat >>> 3) <<< 11 % 2 ^ 16 ||| (g.toNat >>> 2) <<< 5 % 2 ^ 16 ||| b.toNat >>> 3 := by
        simp [to565, UInt16.toNat_or, UInt16.toNat_shiftLeft, UInt16.toNat_shiftRight]
    _ = r.toNat / 8 * 2048 + g.toNat / 4 * 32 + b.toNat / 8 := by rw [hred, hgreen, hblue, hsum]
    _ = (rgb565 ⟨r, g, b⟩).toNat := by
        rw [rgb565, UInt16.toNat_ofNat', Nat.mod_eq_of_lt]
        show r.toNat / 8 * 2048 + g.toNat / 4 * 32 + b.toNat / 8 < 65536
        omega

def Picture.colours (picture : Picture) : List (List UInt16) := picture.rows.map (·.map rgb565)

def Sized (runs : List (Run UInt16)) : Prop := ∀ run ∈ runs, 0 < run.1 ∧ run.1 < 65536

theorem Sized.positive (h : Sized runs) : Positive runs := fun run hrun => (h run hrun).1

theorem Sized.append (h : Sized runs) (h' : Sized more) : Sized (runs ++ more) := by
  intro run hrun
  obtain hrun | hrun := mem_append.mp hrun
  · exact h run hrun
  · exact h' run hrun

theorem sized_singleton {count : Nat} (hpos : 0 < count) (h : count < 65536) :
    Sized [(count, colour)] := by
  intro run hrun
  obtain rfl := mem_singleton.mp hrun
  exact ⟨hpos, h⟩

theorem take_run (pixel : Rgb) (pixels : List Rgb) :
    pixels.take (pixels.takeWhile (pixel = ·)).length =
      List.replicate (pixels.takeWhile (pixel = ·)).length pixel := by
  have htake : pixels.take (pixels.takeWhile (pixel = ·)).length =
      pixels.takeWhile (pixel = ·) := (prefix_iff_eq_take.mp ( takeWhile_prefix _)).symm
  rw [htake]
  refine eq_replicate_iff.mpr ⟨rfl, fun other hother => ?_⟩
  have := mem_takeWhile_imp hother
  simpa [eq_comm] using this

theorem expand_putScanlineToFile (row : List Rgb) :
    expand (putScanlineToFile row) = row.map rgb565 := by
  fun_induction putScanlineToFile row with
  | case1 => rfl
  | case2 pixel pixels n ih =>
    have hrun : pixels = replicate n pixel ++ pixels.drop n := by
      rw [← take_run, take_append_drop]
    rw [expand_cons, ih, to565_eq]
    conv_rhs => rw [hrun]
    simp [replicate_succ]

theorem sized_putScanlineToFile (h : row.length < 65536) : Sized (putScanlineToFile row) := by
  fun_induction putScanlineToFile row with
  | case1 => exact fun run hrun => nomatch hrun
  | case2 pixel pixels n ih =>
    have hn : n ≤ pixels.length := (takeWhile_sublist _).length_le
    rw [length_cons] at h
    have hhead : Sized [(n + 1, to565 pixel)] := sized_singleton (by omega) (by omega)
    exact hhead.append (ih (by rw [length_drop]; omega))

theorem expand_jpegRuns (picture : Picture) :
    expand (jpegRuns picture) = picture.colours.flatten := by
  rw [jpegRuns, expand_flatMap, Picture.colours, ← flatMap_def]
  simp [expand_putScanlineToFile]

theorem sized_jpegRuns (h : picture.width < 65536) : Sized (jpegRuns picture) := by
  intro run hrun
  obtain ⟨row, hrow, hrun⟩ := mem_flatMap.mp hrun
  exact sized_putScanlineToFile (by rwa [picture.length_eq row hrow]) run hrun

theorem pngPixel_runs (h : Sized s.runs) (pixel : Rgb) :
    expand (pngPixel s pixel).runs = expand s.runs ++ [rgb565 pixel] ∧
      Sized (pngPixel s pixel).runs := by
  obtain ⟨written, count, last⟩ := s
  have hnew : Sized [(1, to565 pixel)] := sized_singleton (by decide) (by decide)
  by_cases hcount : count = 0
  · subst hcount
    simp only [PngState.runs, pngPixel, ne_eq, not_true_eq_false, if_false] at h ⊢
    exact ⟨by simp [to565_eq], h.append hnew⟩
  · simp only [PngState.runs, if_pos hcount] at h ⊢
    have hwritten : Sized written := fun run hrun => h run (mem_append_left _ hrun)
    have hlast := h (count, last) (by simp)
    by_cases hmore : to565 pixel = last ∧ count ≠ 65535
    · rw [pngPixel, if_pos hcount, if_pos hmore]
      have hopen : Sized [(count + 1, last)] := sized_singleton (by omega) (by omega)
      refine ⟨?_, ?_⟩
      · simp [replicate_succ', ← hmore.1, to565_eq]
      · simpa using hwritten.append hopen
    · rw [pngPixel, if_pos hcount, if_neg hmore]
      refine ⟨?_, ?_⟩
      · simp [to565_eq]
      · simpa using h.append hnew

theorem pngRuns_spec (picture : Picture) :
    expand (pngRuns picture) = picture.colours.flatten ∧ Sized (pngRuns picture) := by
  have hfold (pixels : List Rgb) (s : PngState) (h : Sized s.runs) :
      expand (pixels.foldl pngPixel s).runs = expand s.runs ++ pixels.map rgb565 ∧
        Sized (pixels.foldl pngPixel s).runs := by
    induction pixels generalizing s with
    | nil => exact ⟨(append_nil _).symm, h⟩
    | cons pixel pixels ih =>
      obtain ⟨hexpand, hsized⟩ := pngPixel_runs h pixel
      obtain ⟨hrest, hsized⟩ := ih _ hsized
      refine ⟨?_, hsized⟩
      rw [foldl_cons, hrest, hexpand, map_cons, append_assoc]
      rfl
  obtain ⟨hexpand, hsized⟩ := hfold picture.rows.flatten ⟨[], 0, 0⟩ fun run hrun => nomatch hrun
  refine ⟨?_, hsized⟩
  rw [pngRuns, hexpand, Picture.colours, map_flatten]
  rfl

end UBoot.Video
