import Mathlib

/-!
# Doubly linked lists in a table

The links of a table of numbered nodes. `Seg m p l q` says that the nodes of `l` are linked in
that order, after the node `p` and before the node `q`.
-/

structure Links (β : Type) where
  val : Nat → β
  next : Nat → Nat
  prev : Nat → Nat

namespace Links

variable {β : Type} {m m' : Links β} {l l' : List (Nat × β)} {p q k : Nat}

def setVal (m : Links β) (k : Nat) (v : β) : Links β := { m with val := Function.update m.val k v }

def setNext (m : Links β) (k q : Nat) : Links β := { m with next := Function.update m.next k q }

def setPrev (m : Links β) (k p : Nat) : Links β := { m with prev := Function.update m.prev k p }

def copy (m : Links β) (d k : Nat) : Links β :=
  ⟨Function.update m.val d (m.val k), Function.update m.next d (m.next k),
    Function.update m.prev d (m.prev k)⟩

def firstKey (l : List (Nat × β)) (q : Nat) : Nat :=
  match l with
  | [] => q
  | (k, _) :: _ => k

def lastKey (p : Nat) : List (Nat × β) → Nat
  | [] => p
  | (k, _) :: l => lastKey k l

def keys (l : List (Nat × β)) : List Nat := l.map Prod.fst

@[simp] theorem keys_append : keys (l ++ l') = keys l ++ keys l' := List.map_append

@[simp] theorem keys_cons : keys ((k, v) :: l) = k :: keys l := rfl

@[simp] theorem firstKey_nil : firstKey ([] : List (Nat × β)) q = q := rfl

@[simp] theorem firstKey_cons : firstKey ((k, v) :: l) q = k := rfl

theorem firstKey_append : firstKey (l ++ l') q = firstKey l (firstKey l' q) := by
  cases l <;> rfl

@[simp] theorem lastKey_nil : lastKey p ([] : List (Nat × β)) = p := rfl

@[simp] theorem lastKey_cons : lastKey p ((k, v) :: l) = lastKey k l := rfl

theorem lastKey_append : lastKey p (l ++ l') = lastKey (lastKey p l) l' := by
  induction l generalizing p with
  | nil => rfl
  | cons x l ih => exact ih

theorem lastKey_mem (hl : l ≠ []) : lastKey p l ∈ keys l := by
  induction l generalizing p with
  | nil => exact absurd rfl hl
  | cons x l ih =>
    cases l with
    | nil => simp [keys, lastKey]
    | cons y l => exact List.mem_cons_of_mem _ (ih (p := x.1) (by simp))

theorem firstKey_mem (hl : l ≠ []) : firstKey l q ∈ keys l := by
  cases l with
  | nil => exact absurd rfl hl
  | cons x l => simp [keys, firstKey]

/-- The nodes of `l` are linked, after `p` and before `q`. -/
def Seg (m : Links β) : Nat → List (Nat × β) → Nat → Prop
  | _, [], _ => True
  | p, (k, v) :: l, q => m.val k = v ∧ m.next k = firstKey l q ∧ m.prev k = p ∧ Seg m k l q

theorem seg_append :
    Seg m p (l ++ l') q ↔ Seg m p l (firstKey l' q) ∧ Seg m (lastKey p l) l' q := by
  induction l generalizing p with
  | nil => simp [Seg]
  | cons x l ih =>
    obtain ⟨k, v⟩ := x
    simp only [List.cons_append, Seg, firstKey_append, ih, lastKey_cons]
    tauto

def AgreeOn (m m' : Links β) (ks : List Nat) : Prop :=
  ∀ k ∈ ks, m.val k = m'.val k ∧ m.next k = m'.next k ∧ m.prev k = m'.prev k

theorem Seg.congr (h : Seg m p l q) (ha : AgreeOn m' m (keys l)) : Seg m' p l q := by
  induction l generalizing p with
  | nil => trivial
  | cons x l ih =>
    obtain ⟨k, v⟩ := x
    obtain ⟨hv, hn, hp, hrest⟩ := h
    obtain ⟨hv', hn', hp'⟩ := ha k (by simp [keys])
    exact ⟨hv'.trans hv, hn'.trans hn, hp'.trans hp,
      ih hrest fun j hj => ha j (List.mem_cons_of_mem _ hj)⟩

theorem agreeOn_setVal (hk : k ∉ ks) : AgreeOn (m.setVal k v) m ks := by
  intro j hj
  have hne : j ≠ k := by rintro rfl; exact hk hj
  simp [setVal, Function.update_of_ne hne]

theorem agreeOn_setNext (hk : k ∉ ks) : AgreeOn (m.setNext k q) m ks := by
  intro j hj
  have hne : j ≠ k := by rintro rfl; exact hk hj
  simp [setNext, Function.update_of_ne hne]

theorem agreeOn_setPrev (hk : k ∉ ks) : AgreeOn (m.setPrev k p) m ks := by
  intro j hj
  have hne : j ≠ k := by rintro rfl; exact hk hj
  simp [setPrev, Function.update_of_ne hne]

theorem agreeOn_copy (hd : d ∉ ks) : AgreeOn (m.copy d k) m ks := by
  intro j hj
  have hne : j ≠ d := by rintro rfl; exact hd hj
  simp [copy, Function.update_of_ne hne]

theorem AgreeOn.trans (h : AgreeOn m' m ks) (h' : AgreeOn m'' m' ks) : AgreeOn m'' m ks :=
  fun k hk => ⟨(h' k hk).1.trans (h k hk).1, (h' k hk).2.1.trans (h k hk).2.1,
    (h' k hk).2.2.trans (h k hk).2.2⟩

theorem Seg.setVal (h : Seg m p (l ++ (k, v) :: l') q) (hl : k ∉ keys l) (hl' : k ∉ keys l')
    (v' : β) : Seg (m.setVal k v') p (l ++ (k, v') :: l') q := by
  rw [seg_append] at h ⊢
  obtain ⟨hpre, -, hn, hp, hpost⟩ := h
  exact ⟨hpre.congr (agreeOn_setVal hl), by simp [Links.setVal], hn, hp,
    hpost.congr (agreeOn_setVal hl')⟩

/-! ## The ends of a segment -/

/-- Link the first node of the segment, if it has one, back to `p`. -/
def linkPrev (m : Links β) (l : List (Nat × β)) (p : Nat) : Links β :=
  if l = [] then m else m.setPrev (firstKey l 0) p

/-- Link the last node of the segment, if it has one, to `q`. -/
def linkNext (m : Links β) (l : List (Nat × β)) (q : Nat) : Links β :=
  if l = [] then m else m.setNext (lastKey 0 l) q

theorem agreeOn_linkPrev (hdisj : ∀ j ∈ keys l, j ∉ ks) : AgreeOn (m.linkPrev l p) m ks := by
  unfold linkPrev
  split
  · exact fun _ _ => ⟨rfl, rfl, rfl⟩
  case isFalse hl => exact agreeOn_setPrev (hdisj _ (firstKey_mem hl))

theorem agreeOn_linkNext (hdisj : ∀ j ∈ keys l, j ∉ ks) : AgreeOn (m.linkNext l q) m ks := by
  unfold linkNext
  split
  · exact fun _ _ => ⟨rfl, rfl, rfl⟩
  case isFalse hl => exact agreeOn_setNext (hdisj _ (lastKey_mem hl))

theorem Seg.linkPrev (h : Seg m p l q) (hnodup : (keys l).Nodup) (p' : Nat) :
    Seg (m.linkPrev l p') p' l q := by
  cases l with
  | nil => trivial
  | cons x l =>
    obtain ⟨k, v⟩ := x
    obtain ⟨hv, hn, hp, hrest⟩ := h
    have hk : k ∉ keys l := (List.nodup_cons.mp hnodup).1
    refine ⟨hv, hn, by simp [Links.linkPrev, setPrev], hrest.congr ?_⟩
    simpa [Links.linkPrev] using agreeOn_setPrev hk

theorem Seg.linkNext (h : Seg m p l q) (hnodup : (keys l).Nodup) (q' : Nat) :
    Seg (m.linkNext l q') p l q' := by
  rcases List.eq_nil_or_concat l with rfl | ⟨l, x, rfl⟩
  · trivial
  · obtain ⟨k, v⟩ := x
    simp only [List.concat_eq_append] at *
    rw [seg_append] at h ⊢
    obtain ⟨hl, hv, hn, hp, -⟩ := h
    have hk : k ∉ keys l := by
      intro hmem
      simp only [keys, List.map_append, List.map_cons, List.map_nil] at hnodup
      exact List.disjoint_of_nodup_append hnodup hmem (by simp)
    have hm : m.linkNext (l ++ [(k, v)]) q' = m.setNext k q' := by
      simp [Links.linkNext, lastKey_append]
    rw [hm]
    exact ⟨hl.congr (agreeOn_setNext hk), hv, by simp [setNext], hp, trivial⟩

end Links
