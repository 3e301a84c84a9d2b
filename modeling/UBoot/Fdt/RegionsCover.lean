import UBoot.Fdt.Regions

/-!
# What the regions cover

The bytes of a property are in the regions just when the path of its node, as
`fdt_find_regions` builds it, is one of those given and the name of the property is
not excluded.
-/

namespace UBoot.Libfdt

/-! ## A walk over the tags -/

/-- A place between two tags: the path built so far, and the paths of the nodes around
it as they were at their beginning, the innermost first. -/
structure Place where
  offset : Nat
  path : List UInt8
  nodes : List (List UInt8)

def Place.root : Place := ⟨0, [], []⟩

def walkStep (fdt : Fdt) (p : Place) : Option Place :=
  match fdtNextTag fdt p.offset with
  | (.beginNode, .ok next) =>
    let path := childPath p.path (fdtGetName fdt p.offset)
    some ⟨next, path, path :: p.nodes⟩
  | (.endNode, .ok next) => some ⟨next, parentPath p.path, p.nodes.tail⟩
  | (.prop, .ok next) => some { p with offset := next }
  | (.nop, .ok next) => some { p with offset := next }
  | _ => none

def Walked (fdt : Fdt) (p q : Place) : Prop :=
  Relation.ReflTransGen (fun p q => walkStep fdt p = some q) p q

def Place.Listed (inc : List (List UInt8)) (p : Place) : Prop :=
  ∃ node, p.nodes.head? = some node ∧ node ∈ inc

theorem le_of_finishTag (h : finishTag fdt tag' offset = (tag, .ok next)) : offset ≤ next := by
  rw [finishTag] at h
  split at h
  · cases h
  · cases h
    rw [tagAlign]
    omega

theorem le_of_fdtNextTag (h : fdtNextTag fdt offset = (tag, .ok next)) : offset ≤ next := by
  rw [fdtNextTag] at h
  split at h
  · cases h
  · split at h
    · have := le_of_finishTag h
      omega
    · have := le_of_finishTag h
      omega
    · split at h
      · cases h
      · have := le_of_finishTag h
        omega
    · have := le_of_finishTag h
      omega
    · have := le_of_finishTag h
      omega
    · cases h

/-! ## Opening and closing regions -/

/-- A byte is in a region, or in the one that is open up to `now`. -/
def Walk.Covers (w : Walk) (now x : Nat) : Prop :=
  (∃ r ∈ w.regions, r.1 ≤ x ∧ x < r.1 + r.2) ∨ ∃ start, w.start = some start ∧ start ≤ x ∧ x < now

structure Walk.Behind (w : Walk) (now : Nat) : Prop where
  regions : ∀ r ∈ w.regions, r.1 + r.2 ≤ now
  start : ∀ start, w.start = some start → start ≤ now

def Walk.reach (w : Walk) (offset stopAt next : Nat) (incl : Bool) : Nat :=
  if incl then next else if w.start.isSome then stopAt else offset

theorem Walk.add_spec {w : Walk} (hw : w.Behind offset) (hstop : offset ≤ stopAt)
    (hnext : stopAt ≤ next) (maxRegions : Nat) (incl : Bool) :
    (w.add maxRegions offset stopAt incl).Behind next ∧
      ∀ x, (w.add maxRegions offset stopAt incl).Covers next x ↔
        w.Covers offset x ∨ (offset ≤ x ∧ x < w.reach offset stopAt next incl) := by
  obtain ⟨regions, start, stack, want, path⟩ := w
  obtain ⟨hregions, hstart⟩ := hw
  dsimp only at hregions hstart
  cases incl with
  | true =>
    cases start with
    | some s =>
      have hs := hstart s rfl
      refine ⟨⟨fun r hr => (hregions r hr).trans (by omega), fun s' hs' => ?_⟩, fun x => ?_⟩
      · cases hs'
        omega
      · simp only [add, Covers, reach, if_true, Option.some.injEq, exists_eq_left', or_assoc]
        refine or_congr Iff.rfl ?_
        omega
    | none =>
      cases regions with
      | nil =>
        refine ⟨⟨by simp [add], fun s' hs' => ?_⟩, fun x => ?_⟩
        · cases hs'
          omega
        · simp [add, Covers, reach]
      | cons r rest =>
        obtain ⟨first, size⟩ := r
        have hfirst := hregions (first, size) (by simp)
        dsimp only at hfirst
        simp only [add, if_true]
        split
        · rename_i hmerge
          refine ⟨⟨fun r hr => (hregions r (by simp [hr])).trans (by omega), fun s' hs' => ?_⟩,
            fun x => ?_⟩
          · cases hs'
            omega
          · simp only [Covers, reach, List.mem_cons, exists_eq_or_imp, Option.some.injEq,
              exists_eq_left', if_true, reduceCtorEq, false_and, exists_false, or_false]
            constructor
            · rintro (h | h)
              · exact .inl (.inr h)
              · by_cases hx : x < offset
                · exact .inl (.inl (by omega))
                · exact .inr (by omega)
            · rintro ((h | h) | h)
              · exact .inr (by omega)
              · exact .inl h
              · exact .inr (by omega)
        · refine ⟨⟨fun r hr => (hregions r hr).trans (by omega), fun s' hs' => ?_⟩, fun x => ?_⟩
          · cases hs'
            omega
          · simp [Covers, reach]
  | false =>
    cases start with
    | some s =>
      have hs := hstart s rfl
      refine ⟨⟨fun r hr => ?_, by simp [add]⟩, fun x => ?_⟩
      · obtain rfl | hr := List.mem_cons.mp hr
        · dsimp only
          omega
        · exact (hregions r hr).trans (by omega)
      · simp only [add, Covers, reach, List.mem_cons, exists_eq_or_imp, Option.some.injEq,
          exists_eq_left', reduceCtorEq, false_and, exists_false, or_false, Option.isSome_some,
          if_true, Bool.false_eq_true, if_false]
        constructor
        · rintro (h | h)
          · by_cases hx : x < offset
            · exact .inl (.inr (by omega))
            · exact .inr (by omega)
          · exact .inl (.inl h)
        · rintro ((h | h) | h)
          · exact .inr h
          · exact .inl (by omega)
          · exact .inl (by omega)
    | none =>
      refine ⟨⟨fun r hr => (hregions r hr).trans (by omega), by simp [add]⟩, fun x => ?_⟩
      simp only [add, Covers, reach, reduceCtorEq, false_and, exists_false, or_false,
        Option.isSome_none, Bool.false_eq_true, if_false]
      refine ⟨.inl, ?_⟩
      rintro (h | h)
      · exact h
      · omega

/-! ## The loop -/

section
variable (fdt : Fdt) (inc excProp : List (List UInt8)) (maxRegions pathLen : Nat)

def wantOf : List (List UInt8) → Nat
  | [] => 0
  | node :: nodes => if node ∈ inc then 2 else wantOf nodes - 1

def stackOf : List (List UInt8) → List Nat
  | [] => []
  | _ :: nodes => wantOf inc nodes :: stackOf nodes

theorem wantOf_le (nodes : List (List UInt8)) : wantOf inc nodes ≤ 2 := by
  induction nodes with
  | nil => exact Nat.zero_le _
  | cons node nodes ih =>
    rw [wantOf]
    split <;> omega

theorem two_le_wantOf_iff (p : Place) : 2 ≤ wantOf inc p.nodes ↔ p.Listed inc := by
  obtain ⟨offset, path, nodes⟩ := p
  cases nodes with
  | nil => simp [wantOf, Place.Listed]
  | cons node nodes =>
    have hle := wantOf_le inc nodes
    by_cases hnode : node ∈ inc
    · simp [wantOf, Place.Listed, hnode]
    · simp only [wantOf, Place.Listed, hnode, if_false, List.head?_cons, Option.some.injEq,
        exists_eq_left', iff_false]
      omega

structure Walk.At (w : Walk) (p : Place) : Prop where
  path : w.path = p.path
  want : w.want = wantOf inc p.nodes
  stack : w.stack = stackOf inc p.nodes
  behind : w.Behind p.offset

def Included (p : Place) : Prop := p.Listed inc ∧ propName fdt p.offset ∉ excProp

variable {fdt inc excProp maxRegions pathLen}

theorem Walk.add_eq (w : Walk) (maxRegions offset stopAt : Nat) (incl : Bool) :
    ∃ regions start, w.add maxRegions offset stopAt incl =
      { w with regions := regions, start := start } := by
  rw [Walk.add]
  split
  · split
    · split
      · exact ⟨_, _, rfl⟩
      · exact ⟨_, _, rfl⟩
    · exact ⟨_, _, rfl⟩
    · exact ⟨_, _, rfl⟩
  · split
    · exact ⟨_, _, rfl⟩
    · exact ⟨w.regions, w.start, rfl⟩

theorem Walk.add_at {w : Walk} (hpath : w.path = p.path) (hwant : w.want = wantOf inc p.nodes)
    (hstack : w.stack = stackOf inc p.nodes) (hbehind : w.Behind offset) (hstop : offset ≤ stopAt)
    (hnext : stopAt ≤ p.offset) (maxRegions : Nat) (incl : Bool) :
    (w.add maxRegions offset stopAt incl).At inc p := by
  have hspec := (Walk.add_spec hbehind hstop hnext maxRegions incl).1
  obtain ⟨regions, start, heq⟩ := w.add_eq maxRegions offset stopAt incl
  rw [heq] at hspec ⊢
  exact ⟨hpath, hwant, hstack, hspec⟩

theorem Walk.covers_before {w : Walk} (hbehind : w.Behind offset) (hstop : offset ≤ stopAt)
    (hnext : stopAt ≤ next) (hx : x < offset) :
    (w.add maxRegions offset stopAt incl).Covers next x ↔ w.Covers offset x := by
  rw [(Walk.add_spec hbehind hstop hnext maxRegions incl).2 x, or_iff_left (by omega)]

theorem Walk.Behind.not_covers {w : Walk} (h : w.Behind offset) (hx : offset ≤ x) :
    ¬ w.Covers offset x := by
  rintro (⟨r, hr, -, hlt⟩ | ⟨s, -, -, hlt⟩)
  · have := h.regions r hr
    omega
  · omega

def Place.flag (fdt : Fdt) (inc excProp : List (List UInt8)) (p : Place) : Tag → Bool
  | .prop => 2 ≤ wantOf inc p.nodes ∧ propName fdt p.offset ∉ excProp
  | .nop => 2 ≤ wantOf inc p.nodes
  | .beginNode => wantOf inc (childPath p.path (fdtGetName fdt p.offset) :: p.nodes) ≠ 0
  | .endNode => wantOf inc p.nodes ≠ 0
  | .fdtEnd => true

/-- What a round does from `w` at `p` to `w'` at `p'`: the tag is added with its flag to the
regions as they are. A tag that is not included is left out from its start, but for an
`FDT_END_NODE`. -/
structure Adds (fdt : Fdt) (inc excProp : List (List UInt8)) (maxRegions : Nat) (tag : Tag)
    (w : Walk) (p : Place) (w' : Walk) (p' : Place) (v : Walk) (stopAt : Nat) : Prop where
  walk : walkStep fdt p = some p'
  path : v.path = p'.path
  want : v.want = wantOf inc p'.nodes
  stack : v.stack = stackOf inc p'.nodes
  regions : v.regions = w.regions
  start : v.start = w.start
  eq : w' = v.add maxRegions p.offset stopAt (p.flag fdt inc excProp tag)
  le_stop : p.offset ≤ stopAt
  stop_le : stopAt ≤ p'.offset
  stop_end : tag = .endNode → stopAt = p'.offset
  stop_other : tag ≠ .endNode → p.flag fdt inc excProp tag = false → stopAt = p.offset

theorem regionStep_adds (hat : w.At inc p) (htag : fdtNextTag fdt p.offset = (tag, .ok next))
    (hend : tag ≠ .fdtEnd)
    (hstep : regionStep fdt inc excProp maxRegions pathLen w tag p.offset next = some (.ok w')) :
    ∃ p' v stopAt, p'.offset = next ∧
      Adds fdt inc excProp maxRegions tag w p w' p' v stopAt := by
  have hle := le_of_fdtNextTag htag
  obtain ⟨hpath, hwant, hstack, -⟩ := hat
  cases tag with
  | fdtEnd => exact absurd rfl hend
  | prop =>
    cases hstep
    exact ⟨{ p with offset := next }, w, p.offset, rfl, by simp [walkStep, htag], hpath, hwant,
      hstack, rfl, rfl, by simp [Place.flag, hwant], le_rfl, hle, by simp, fun _ _ => rfl⟩
  | nop =>
    cases hstep
    exact ⟨{ p with offset := next }, w, p.offset, rfl, by simp [walkStep, htag], hpath, hwant,
      hstack, rfl, rfl, by simp [Place.flag, hwant], le_rfl, hle, by simp, fun _ _ => rfl⟩
  | beginNode =>
    simp only [regionStep] at hstep
    split at hstep
    · cases hstep
    · split at hstep
      · cases hstep
      · rw [hpath, hwant] at hstep
        cases hstep
        let path := childPath p.path (fdtGetName fdt p.offset)
        refine ⟨⟨next, path, path :: p.nodes⟩,
          { w with
            path := path
            want := wantOf inc (path :: p.nodes)
            stack := wantOf inc p.nodes :: w.stack }, _, rfl, by simp [walkStep, htag, path], rfl,
          rfl, congrArg (wantOf inc p.nodes :: ·) hstack, rfl, rfl, rfl, ?_, ?_, by simp,
          fun _ hflag => ?_⟩
        · split <;> omega
        · dsimp only
          split <;> omega
        · have hzero : wantOf inc (path :: p.nodes) = 0 := by simpa [Place.flag] using hflag
          rw [wantOf] at hzero
          split at hzero
          next => omega
          next hnot =>
            rw [if_pos]
            obtain h | h : wantOf inc p.nodes = 1 ∨ wantOf inc p.nodes = 0 := by omega
            · exact .inl h
            · exact .inr ⟨h, hnot⟩
  | endNode =>
    simp only [regionStep] at hstep
    split at hstep
    · cases hstep
    · rename_i want stack hcons
      cases hstep
      rw [hcons] at hstack
      cases hnodes : p.nodes with
      | nil =>
        rw [hnodes, stackOf] at hstack
        cases hstack
      | cons node nodes =>
        rw [hnodes, stackOf] at hstack
        cases hstack
        exact ⟨⟨next, parentPath p.path, nodes⟩,
          { w with
            path := parentPath w.path
            want := wantOf inc nodes
            stack := stackOf inc nodes }, next, rfl, by simp [walkStep, htag, hnodes],
          congrArg parentPath hpath, rfl, rfl, rfl, rfl, by simp [Place.flag, hwant], hle, le_rfl,
          fun _ => rfl, fun h => absurd rfl h⟩

section
variable {w w' v : Walk} {p p' : Place} (h : Adds fdt inc excProp maxRegions tag w p w' p' v stopAt)
include h

section
variable (hbehind : w.Behind p.offset)
include hbehind

theorem Adds.behind : v.Behind p.offset :=
  ⟨h.regions ▸ hbehind.regions, h.start ▸ hbehind.start⟩

theorem Adds.at : w'.At inc p' := by
  rw [h.eq]
  exact Walk.add_at h.path h.want h.stack (h.behind hbehind) h.le_stop h.stop_le _ _

theorem Adds.covers_iff (x : Nat) : w'.Covers p'.offset x ↔ w.Covers p.offset x ∨ (p.offset ≤ x ∧
      x < w.reach p.offset stopAt p'.offset (p.flag fdt inc excProp tag)) := by
  have hspec := (Walk.add_spec (h.behind hbehind) h.le_stop h.stop_le maxRegions
    (p.flag fdt inc excProp tag)).2 x
  rw [h.eq, hspec]
  simp [Walk.Covers, Walk.reach, h.regions, h.start]

theorem Adds.covers_before (hx : x < p.offset) : w'.Covers p'.offset x ↔ w.Covers p.offset x := by
  rw [h.covers_iff hbehind, or_iff_left (by omega)]

theorem Adds.covers_here {x : Nat} (hx : p.offset ≤ x) (hlt : x < p'.offset) :
    w'.Covers p'.offset x ↔
      p.flag fdt inc excProp tag = true ∨ tag = .endNode ∧ w.start.isSome := by
  rw [h.covers_iff hbehind, or_iff_right (hbehind.not_covers hx), Walk.reach]
  cases hflag : p.flag fdt inc excProp tag with
  | true => simp [hx, hlt]
  | false =>
    by_cases htag : tag = .endNode
    · cases hstart : w.start with
      | none => simp [hx]
      | some start => simp [htag, h.stop_end htag, hx, hlt]
    · simp only [Bool.false_eq_true, if_false, h.stop_other htag hflag, ite_self, htag, false_and,
        or_self, iff_false]
      omega

end

end

theorem regionLoop_spec (hat : w.At inc p)
    (hloop : regionLoop fdt inc excProp maxRegions pathLen fuel p.offset w =
      some (.ok (w', last, .ok size))) : last ≤ size ∧ (∃ start, w'.start = some start) ∧
      (∀ x < p.offset, w'.Covers size x ↔ w.Covers p.offset x) ∧
      ∀ q next, Walked fdt p q → fdtNextTag fdt q.offset = (.prop, .ok next) →
        ∀ x, q.offset ≤ x → x < next → (w'.Covers size x ↔ Included fdt inc excProp q) := by
  induction fuel generalizing w p with
  | zero => cases hloop
  | succ fuel ih =>
    rw [regionLoop] at hloop
    split at hloop
    · rename_i next htag
      cases hloop
      have hle := le_of_fdtNextTag htag
      refine ⟨hle, ?_, fun x hx => Walk.covers_before hat.behind le_rfl hle hx, ?_⟩
      · rw [Walk.add, if_pos rfl]
        split
        · split
          · exact ⟨_, rfl⟩
          · exact ⟨_, rfl⟩
        · exact ⟨_, rfl⟩
        · rename_i s hstart
          exact ⟨s, hstart⟩
      · -- there is no property here or behind
        intro q next' hwalked hprop
        obtain rfl | ⟨p₁, hstep, -⟩ := hwalked.cases_head
        · rw [htag] at hprop
          cases hprop
        · simp [walkStep, htag] at hstep
    · cases hloop
    · rename_i tag next hend htag
      split at hloop
      · cases hloop
      · cases hloop
      · rename_i w₁ hstep
        obtain ⟨p₁, v, stopAt, rfl, hadds⟩ := regionStep_adds hat htag hend hstep
        obtain ⟨hlast, hstart, hbefore, hthere⟩ := ih (hadds.at hat.behind) hloop
        have hle := le_of_fdtNextTag htag
        refine ⟨hlast, hstart, fun x hx => ?_, fun q next' hwalked hprop x hx hlt => ?_⟩
        · rw [hbefore x (by omega), hadds.covers_before hat.behind hx]
        · obtain rfl | ⟨p₂, hp₂, hwalked⟩ := hwalked.cases_head
          · rw [htag] at hprop
            cases hprop
            rw [hbefore x hlt, hadds.covers_here hat.behind hx hlt, Included, ← two_le_wantOf_iff]
            simp [Place.flag]
          · rw [hadds.walk] at hp₂
            cases hp₂
            exact hthere q next' hwalked hprop x hx hlt

theorem fdtFindRegions_covers
    (h : fdtFindRegions fdt inc excProp maxRegions pathLen = some (.ok regions))
    (hwalked : Walked fdt Place.root q) (hprop : fdtNextTag fdt q.offset = (.prop, .ok next))
    (hx : q.offset ≤ x) (hlt : x < next) :
    (∃ r ∈ regions, r.1 ≤ x ∧ x < r.1 + r.2) ↔ Included fdt inc excProp q := by
  have hat : Walk.At inc ⟨[], none, [], 0, []⟩ Place.root :=
    ⟨rfl, rfl, rfl, ⟨by simp, by simp⟩⟩
  rw [fdtFindRegions] at h
  split at h
  · cases h
  · cases h
  · rename_i w last after hloop
    split at h
    · rename_i hafter
      subst hafter
      cases h
      obtain ⟨hlast, ⟨start, hstart⟩, -, hcovers⟩ := regionLoop_spec hat hloop
      rw [← hcovers q next hwalked hprop x hx hlt, Walk.Covers, hstart]
      simp only [List.mem_reverse, List.mem_cons, exists_eq_or_imp, Option.getD_some,
        Option.some.injEq, exists_eq_left']
      rw [or_comm]
      refine or_congr Iff.rfl ?_
      omega
    · cases h

end

end UBoot.Libfdt
