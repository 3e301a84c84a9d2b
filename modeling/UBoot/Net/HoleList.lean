import UBoot.Lib.LinkedList
import UBoot.Net.Defrag

/-!
# The list of holes in the buffer

`Listed s L` says that the list of the state is `L`, the index and the last byte of each hole
in order; the holes do not overlap and their descriptors lie in the buffer.
-/

namespace UBoot.Net

open Function
open List hiding keys

open Links (Seg firstKey lastKey keys AgreeOn seg_append)

/-! ## Bytes and links -/

theorem read16_write16_self (buf : Buffer) (a v : Nat) :
    read16 (write16 buf a v) a = v % 2 ^ 16 := by
  have hne : a ≠ a + 1 := by omega
  simp only [read16, write16, update_self, update_of_ne hne,
    UInt8.toNat_ofNat']
  omega

theorem read16_write16_of_ne (buf : Buffer) (v : Nat) (h : b + 1 < a ∨ a + 1 < b) :
    read16 (write16 buf a v) b = read16 buf b := by
  unfold read16 write16
  rw [update_of_ne (by omega), update_of_ne (by omega),
    update_of_ne (by omega), update_of_ne (by omega)]

def links (buf : Buffer) : Links Nat :=
  ⟨fun i => (hole buf i).lastByte, fun i => (hole buf i).nextHole, fun i => (hole buf i).prevHole⟩

section
variable (buf : Buffer)

theorem read16_write16_field (i v t : Nat) (_ : t < 7) :
    (fun j => read16 (write16 buf (8 * i + t) v) (8 * j + t)) =
      Function.update (fun j => read16 buf (8 * j + t)) i (v % 2 ^ 16) := by
  funext j
  by_cases hj : j = i
  · subst hj
    rw [update_self, read16_write16_self]
  · rw [update_of_ne hj, read16_write16_of_ne _ _ (by omega)]

theorem links_setLastByte (i v : Nat) :
    links (setLastByte buf i v) = (links buf).setVal i (v % 2 ^ 16) := by
  simp only [links, Links.setVal, setLastByte, hole, Links.mk.injEq]
  refine ⟨read16_write16_field buf i v 0 (by decide), funext fun j => ?_, funext fun j => ?_⟩
  · exact read16_write16_of_ne _ _ (by omega)
  · exact read16_write16_of_ne _ _ (by omega)

theorem links_setNextHole (i v : Nat) :
    links (setNextHole buf i v) = (links buf).setNext i (v % 2 ^ 16) := by
  simp only [links, Links.setNext, setNextHole, hole, Links.mk.injEq]
  refine ⟨funext fun j => ?_, read16_write16_field buf i v 2 (by decide), funext fun j => ?_⟩
  · exact read16_write16_of_ne _ _ (by omega)
  · exact read16_write16_of_ne _ _ (by omega)

theorem links_setPrevHole (i v : Nat) :
    links (setPrevHole buf i v) = (links buf).setPrev i (v % 2 ^ 16) := by
  simp only [links, Links.setPrev, setPrevHole, hole, Links.mk.injEq]
  refine ⟨funext fun j => ?_, funext fun j => ?_, read16_write16_field buf i v 4 (by decide)⟩
  · exact read16_write16_of_ne _ _ (by omega)
  · exact read16_write16_of_ne _ _ (by omega)

theorem hole_setPrevHole_of_ne (v : Nat) (h : c ≠ k) :
    hole (setPrevHole buf k v) c = hole buf c := by
  simp only [hole, setPrevHole, Hole.mk.injEq]
  exact ⟨read16_write16_of_ne _ _ (by omega), read16_write16_of_ne _ _ (by omega),
    read16_write16_of_ne _ _ (by omega)⟩

theorem read16_copyHole_self (d c : Nat) (ht : t < 7) :
    read16 (copyHole buf d c) (8 * d + t) = read16 buf (8 * c + t) := by
  unfold read16 copyHole
  rw [if_pos (by omega), if_pos (by omega), Nat.add_sub_cancel_left,
    show 8 * d + t + 1 - 8 * d = t + 1 by omega, Nat.add_assoc]

theorem read16_copyHole_of_ne (c : Nat) (h : j ≠ d) (ht : t < 7) :
    read16 (copyHole buf d c) (8 * j + t) = read16 buf (8 * j + t) := by
  unfold read16 copyHole
  rw [if_neg (by omega), if_neg (by omega)]

theorem hole_copyHole_self (d c : Nat) : hole (copyHole buf d c) d = hole buf c := by
  simp only [hole, Hole.mk.injEq]
  exact ⟨read16_copyHole_self buf d c (by decide : 0 < 7), read16_copyHole_self _ _ _ (by decide),
    read16_copyHole_self _ _ _ (by decide)⟩

theorem links_copyHole (d c : Nat) : links (copyHole buf d c) = (links buf).copy d c := by
  have hfield (t : Nat) (ht : t < 7) : (fun j => read16 (copyHole buf d c) (8 * j + t)) =
      update (fun j => read16 buf (8 * j + t)) d (read16 buf (8 * c + t)) := by
    funext j
    by_cases hj : j = d
    · subst hj
      rw [update_self, read16_copyHole_self _ _ _ ht]
    · rw [update_of_ne hj, read16_copyHole_of_ne _ _ hj ht]
  simp only [links, Links.copy, hole, Links.mk.injEq]
  exact ⟨hfield 0 (by decide), hfield 2 (by decide), hfield 4 (by decide)⟩

theorem agreeOn_memcpy (start : Nat) (src : List UInt8)
    (h : ∀ k ∈ ks, 8 * k + 8 ≤ start ∨ start + src.length ≤ 8 * k) :
    AgreeOn (links (memcpy buf start src)) (links buf) ks := by
  intro k hk
  have hread (t) (ht : t < 7) :
      read16 (memcpy buf start src) (8 * k + t) = read16 buf (8 * k + t) := by
    have := h k hk
    unfold read16 memcpy
    rw [if_neg (by omega), if_neg (by omega)]
  exact ⟨hread 0 (by decide), hread 2 (by decide), hread 4 (by decide)⟩

end

def Frame (ks : List Nat) (buf buf' : Buffer) : Prop :=
  ∀ a, (∀ k ∈ ks, a < 8 * k ∨ 8 * k + 8 ≤ a) → buf' a = buf a

theorem Frame.refl (ks : List Nat) (buf : Buffer) : Frame ks buf buf := fun _ _ => rfl

theorem Frame.trans (h : Frame ks buf buf') (h' : Frame ks buf' buf'') : Frame ks buf buf'' :=
  fun a ha => (h' a ha).trans (h a ha)

theorem Frame.mono (h : Frame ks buf buf') (hsub : ks ⊆ ks') : Frame ks' buf buf' :=
  fun a ha => h a fun k hk => ha k (hsub hk)

theorem frame_write16 (buf : Buffer) (v : Nat) (hk : k ∈ ks) (ht : t < 7) :
    Frame ks buf (write16 buf (8 * k + t) v) := by
  intro a ha
  have := ha k hk
  unfold write16
  rw [update_of_ne (by omega), update_of_ne (by omega)]

theorem frame_copyHole (buf : Buffer) (c : Nat) (hd : d ∈ ks) :
    Frame ks buf (copyHole buf d c) := by
  intro a ha
  have := ha d hd
  exact if_neg (by omega)

theorem frame_setLastByte (buf : Buffer) (v : Nat) (hk : k ∈ ks) :
    Frame ks buf (setLastByte buf k v) :=
  frame_write16 buf v hk (by decide : 0 < 7)

theorem frame_setNextHole (buf : Buffer) (v : Nat) (hk : k ∈ ks) :
    Frame ks buf (setNextHole buf k v) :=
  frame_write16 buf v hk (by decide)

theorem frame_setPrevHole (buf : Buffer) (v : Nat) (hk : k ∈ ks) :
    Frame ks buf (setPrevHole buf k v) :=
  frame_write16 buf v hk (by decide)

/-! ## The list -/

structure Ordered (L : List (Nat × Nat)) : Prop where
  bounds : ∀ x ∈ L, 8 * x.1 < x.2 ∧ x.2 < 2 ^ 16 ∧ InBuffer x.1
  apart : L.Pairwise fun x y => x.2 ≤ 8 * y.1

structure Listed (s : State) (L : List (Nat × Nat)) : Prop where
  nonempty : L ≠ []
  ordered : Ordered L
  seg : Seg (links s.payload) 0 L 0
  first : s.firstHole = firstKey L 0

theorem InBuffer.lt (h : InBuffer i) : i < 2058 := by
  simp only [InBuffer, ipMaxUdp, ipPktSize, ipHdrSize] at h
  omega

theorem Ordered.sublist (h : Ordered L) (hs : L'.Sublist L) : Ordered L' :=
  ⟨fun x hx => h.bounds x (hs.subset hx), h.apart.sublist hs⟩

theorem Ordered.keys_lt (h : Ordered L) : L.Pairwise fun x y => x.1 < y.1 := by
  refine h.apart.imp_of_mem fun hx _ hxy => ?_
  have := (h.bounds _ hx).1
  omega

theorem Ordered.nodup (h : Ordered L) : (keys L).Nodup := by
  have := h.keys_lt
  rw [keys, List.Nodup, pairwise_map]
  exact this.imp fun hlt => hlt.ne

theorem Ordered.length_le (h : Ordered L) : L.length ≤ 2058 := by
  have hsub : (keys L).toFinset ⊆ Finset.range 2058 := by
    intro k hk
    obtain ⟨x, hx, rfl⟩ := mem_map.mp (mem_toFinset.mp hk)
    exact Finset.mem_range.mpr (h.bounds x hx).2.2.lt
  have hcard := Finset.card_le_card hsub
  rwa [toFinset_card_of_nodup h.nodup, Finset.card_range, keys, length_map] at hcard

section
variable {pre post : List (Nat × Nat)} {c e : Nat}

section
variable (h : Ordered (pre ++ (c, e) :: post))
include h

theorem Ordered.before (hx : x ∈ pre) : x.2 ≤ 8 * c ∧ x.1 < c :=
  ⟨(pairwise_append.mp h.apart).2.2 x hx (c, e) (by simp),
    (pairwise_append.mp h.keys_lt).2.2 x hx (c, e) (by simp)⟩

theorem Ordered.after (hx : x ∈ post) : e ≤ 8 * x.1 ∧ c < x.1 :=
  ⟨(pairwise_cons.mp (pairwise_append.mp h.apart).2.1).1 x hx,
    (pairwise_cons.mp (pairwise_append.mp h.keys_lt).2.1).1 x hx⟩

theorem Ordered.at : 8 * c < e ∧ e < 2 ^ 16 ∧ InBuffer c :=
  h.bounds (c, e) (by simp)

theorem Ordered.replace (hpre : pre'.Sublist pre) (hm : Ordered M) (hlo : ∀ x ∈ M, 8 * c ≤ 8 * x.1)
    (hhi : ∀ x ∈ M, x.2 ≤ e ∨ ∀ y ∈ post, x.2 ≤ 8 * y.1) : Ordered (pre' ++ M ++ post) := by
  have hparts := pairwise_append.mp h.apart
  refine ⟨fun x hx => ?_, ?_⟩
  · simp only [mem_append] at hx
    rcases hx with (hx | hx) | hx
    · exact h.bounds x (by simp [hpre.subset hx])
    · exact hm.bounds x hx
    · exact h.bounds x (by simp [hx])
  · rw [pairwise_append, pairwise_append]
    refine ⟨⟨hparts.1.sublist hpre, hm.apart, fun x hx y hy => ?_⟩,
      (pairwise_cons.mp hparts.2.1).2, fun x hx y hy => ?_⟩
    · exact (h.before (hpre.subset hx)).1.trans (hlo y hy)
    · rcases mem_append.mp hx with hx | hx
      · exact hparts.2.2 x (hpre.subset hx) y (by simp [hy])
      · exact (hhi x hx).elim (·.trans (h.after hy).1) (· y hy)

end

theorem firstKey_eq_zero_iff (h : Ordered ((c, e) :: post)) :
    firstKey post 0 = 0 ↔ post = [] := by
  refine ⟨fun h0 => ?_, fun h => by rw [h]; rfl⟩
  cases post with
  | nil => rfl
  | cons x post =>
    have hlt : c < x.1 := (pairwise_cons.mp h.keys_lt).1 x mem_cons_self
    have h0 : x.1 = 0 := h0
    omega

theorem Ordered.firstKey_le (h : Ordered L) (hx : x ∈ L) : firstKey L 0 ≤ x.1 := by
  cases L with
  | nil => cases hx
  | cons y L =>
    rcases mem_cons.mp hx with rfl | hx
    · exact le_rfl
    · exact ((pairwise_cons.mp h.keys_lt).1 x hx).le

theorem exists_hole (start : Nat) (L : List (Nat × Nat)) :
    (∀ x ∈ L, x.2 < start) ∨
      ∃ pre c e post, L = pre ++ (c, e) :: post ∧ (∀ x ∈ pre, x.2 < start) ∧ start ≤ e := by
  induction L with
  | nil => exact .inl (by simp)
  | cons x L ih =>
    rcases Nat.lt_or_ge x.2 start with hlt | hge
    · rcases ih with hall | ⟨pre, c, e, post, rfl, hpre, hstart⟩
      · exact .inl (by simpa [hlt] using hall)
      · exact .inr ⟨x :: pre, c, e, post, rfl, by simpa [hlt] using hpre, hstart⟩
    · exact .inr ⟨[], x.1, x.2, L, rfl, by simp, hge⟩

theorem walk_step (start fuel : Nat) (hord : Ordered ((c, e) :: L)) (hseg : Seg (links buf) p ((c, e) :: L) 0) :
    walk buf start (fuel + 1) c =
      if e < start then
        if L = [] then some .tooFar else walk buf start fuel (firstKey L 0)
      else some (.found c) := by
  obtain ⟨hv, hn, -, -⟩ := hseg
  have hv : (hole buf c).lastByte = e := hv
  have hn : (hole buf c).nextHole = firstKey L 0 := hn
  rw [walk, if_pos (hord.bounds (c, e) mem_cons_self).2.2, hv, hn]
  simp [firstKey_eq_zero_iff hord]

/-- The walk ends at the first hole that does not end before the start. -/
theorem walk_eq (hne : L ≠ []) (hord : Ordered L) (hseg : Seg (links buf) p L 0)
    (hfuel : L.length ≤ fuel) : walk buf start fuel (firstKey L 0) =
      some (((L.find? fun x => start ≤ x.2).map fun x => Walk.found x.1).getD .tooFar) := by
  induction L generalizing fuel p with
  | nil => exact absurd rfl hne
  | cons x L ih =>
    obtain ⟨fuel, rfl⟩ : ∃ f, fuel = f + 1 := ⟨fuel - 1, by simp at hfuel; omega⟩
    refine (walk_step start fuel hord hseg).trans ?_
    by_cases hx : x.2 < start
    · rw [if_pos hx, find?_cons_of_neg (by simpa using hx)]
      by_cases hL : L = []
      · rw [if_pos hL, hL]
        rfl
      · rw [if_neg hL]
        exact ih hL (hord.sublist (sublist_cons_self _ _)) hseg.2.2.2 (by simpa using hfuel)
    · rw [if_neg hx, find?_cons_of_pos (by simpa using hx)]
      rfl

end

end UBoot.Net
