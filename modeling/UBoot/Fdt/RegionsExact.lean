import UBoot.Fdt.RegionsCover

/-!
# Which tags the regions cover

`fdt_find_regions` covers the tags of the nodes that are given and of their direct
subnodes, but also the `FDT_END_NODE` of a node that is neither, if it comes right
after that of a node that is given: the region is still open there, and is closed
behind the tag.
-/

namespace UBoot.Libfdt

open List hiding next count

variable {fdt : Fdt} {inc excProp : List (List UInt8)} {maxRegions pathLen : Nat}

/-! ## The order of regions -/

structure Walk.Ordered (w : Walk) (now : Nat) : Prop where
  pairwise : w.regions.Pairwise fun a b => b.1 + b.2 ≤ a.1
  nonempty : ∀ r ∈ w.regions, 0 < r.2
  start : ∀ start, w.start = some start → start < now ∧ ∀ r ∈ w.regions, r.1 + r.2 ≤ start

theorem Walk.Ordered.add {w : Walk} (h : w.Ordered offset) (hbehind : w.Behind offset)
    (hstop : offset ≤ stopAt) (hlt : offset < next) (maxRegions : Nat) (incl : Bool) :
    (w.add maxRegions offset stopAt incl).Ordered next := by
  obtain ⟨regions, start, stack, want, path⟩ := w
  obtain ⟨hpairwise, hnonempty, hstart⟩ := h
  have hends := hbehind.regions
  dsimp only at hpairwise hnonempty hstart hends
  cases incl with
  | true =>
    cases start with
    | some s =>
      refine ⟨hpairwise, hnonempty, fun s' hs' => ?_⟩
      obtain ⟨hs, hall⟩ := hstart s' hs'
      exact ⟨by omega, hall⟩
    | none =>
      cases regions with
      | nil =>
        refine ⟨List.Pairwise.nil, by simp [Walk.add], fun s' hs' => ?_⟩
        cases hs'
        exact ⟨hlt, by simp [Walk.add]⟩
      | cons r rest =>
        obtain ⟨first, size⟩ := r
        obtain ⟨hfirst, hrest⟩ := pairwise_cons.mp hpairwise
        have hsize := hnonempty (first, size) mem_cons_self
        simp only [Walk.add, if_true]
        split
        next hmerge =>
          refine ⟨hrest, fun r hr => hnonempty r (mem_cons_of_mem _ hr), fun s' hs' => ?_⟩
          cases hs'
          exact ⟨by dsimp only at hsize; omega, hfirst⟩
        next =>
          refine ⟨hpairwise, hnonempty, fun s' hs' => ?_⟩
          cases hs'
          exact ⟨hlt, hends⟩
  | false =>
    cases start with
    | some s =>
      obtain ⟨hs, hall⟩ := hstart s rfl
      refine ⟨pairwise_cons.mpr ⟨hall, hpairwise⟩, fun r hr => ?_, by simp [Walk.add]⟩
      obtain rfl | hr := mem_cons.mp hr
      · dsimp only
        omega
      · exact hnonempty r hr
    | none => exact ⟨hpairwise, hnonempty, by simp [Walk.add]⟩

theorem Walk.add_start_isSome (w : Walk) (maxRegions offset stopAt : Nat) (incl : Bool) :
    (w.add maxRegions offset stopAt incl).start.isSome = incl := by
  obtain ⟨regions, start, stack, want, path⟩ := w
  cases incl with
  | true =>
    cases start with
    | some s => rfl
    | none =>
      cases regions with
      | nil => rfl
      | cons r rest =>
        simp only [Walk.add, if_true]
        split <;> rfl
  | false => cases start <;> rfl

/-! ## The loop -/

def FlagStep (fdt : Fdt) (inc excProp : List (List UInt8)) (p p' : Place × Bool) : Prop :=
  ∃ tag next, fdtNextTag fdt p.1.offset = (tag, .ok next) ∧ walkStep fdt p.1 = some p'.1 ∧
    p'.2 = p.1.flag fdt inc excProp tag

def Flagged (fdt : Fdt) (inc excProp : List (List UInt8)) : Place × Bool → Place × Bool → Prop :=
  Relation.ReflTransGen (FlagStep fdt inc excProp)

theorem regionLoop_stuck (htag : fdtNextTag fdt offset = (.prop, .ok offset))
    (fuel : Nat) : regionLoop fdt inc excProp maxRegions pathLen fuel offset w = none := by
  induction fuel generalizing w with
  | zero => rfl
  | succ fuel ih =>
    rw [regionLoop, htag]
    exact ih

theorem lt_of_finishTag (h : finishTag fdt tag' n = (tag, .ok next)) (hn : offset < n) :
    offset < next := hn.trans_le (le_of_finishTag h)

theorem lt_or_eq_of_fdtNextTag (h : fdtNextTag fdt offset = (tag, .ok next)) :
    offset < next ∨ tag = .prop ∧ next = offset := by
  rw [fdtNextTag] at h
  split at h
  · cases h
  · split at h
    · exact .inl (lt_of_finishTag h (by omega))
    · exact .inl (lt_of_finishTag h (by omega))
    · split at h
      · cases h
      · have hle := le_of_finishTag h
        have htag : tag = .prop := by
          unfold finishTag at h
          split_ifs at h
          · cases h
          · exact (congrArg Prod.fst h).symm
        obtain heq | hlt := Nat.eq_or_lt_of_le ((Nat.le_add_right _ _).trans hle)
        · exact .inr ⟨htag, heq.symm⟩
        · exact .inl hlt
    · exact .inl (lt_of_finishTag h (by omega))
    · exact .inl (lt_of_finishTag h (by omega))
    · cases h

theorem regionLoop_exact (hat : w.At inc p) (hordered : w.Ordered p.offset)
    (hloop : regionLoop fdt inc excProp maxRegions pathLen fuel p.offset w =
      some (.ok (w', last, .ok size))) : p.offset < size ∧ w'.Ordered size ∧ w'.start.isSome ∧
      (∀ x < p.offset, w'.Covers size x ↔ w.Covers p.offset x) ∧
      ∀ q b tag next, Flagged fdt inc excProp (p, w.start.isSome) (q, b) →
        fdtNextTag fdt q.offset = (tag, .ok next) → next ≤ size ∧ ∀ x, q.offset ≤ x → x < next →
        (w'.Covers size x ↔ q.flag fdt inc excProp tag = true ∨ tag = .endNode ∧ b = true) := by
  induction fuel generalizing w p with
  | zero => cases hloop
  | succ fuel ih =>
    rw [regionLoop] at hloop
    split at hloop
    next next htag =>
      cases hloop
      have hlt : p.offset < size := (lt_or_eq_of_fdtNextTag htag).resolve_right (by simp)
      have hadd := (Walk.add_spec hat.behind le_rfl hlt.le maxRegions true).2
      refine ⟨hlt, hordered.add hat.behind le_rfl hlt _ _, Walk.add_start_isSome _ _ _ _ _,
        fun x hx => Walk.covers_before hat.behind le_rfl hlt.le hx, ?_⟩
      intro q b tag next hflagged htag'
      obtain heq | ⟨r, ⟨_, _, _, hwalk, _⟩, _⟩ := hflagged.cases_head
      · cases heq
        cases htag.symm.trans htag'
        refine ⟨le_rfl, fun x hx hxlt => ?_⟩
        rw [hadd]
        simp [Walk.reach, Place.flag, hx, hxlt]
      · simp [walkStep, htag] at hwalk
    next => cases hloop
    next tag next hend htag =>
      split at hloop
      next => cases hloop
      next => cases hloop
      next w₁ hstep =>
        have hlt : p.offset < next := by
          obtain hlt | ⟨rfl, rfl⟩ := lt_or_eq_of_fdtNextTag htag
          · exact hlt
          · rw [regionLoop_stuck htag] at hloop
            cases hloop
        obtain ⟨p₁, v, stopAt, rfl, hadds⟩ := regionStep_adds hat htag hend hstep
        have hordered₁ : w₁.Ordered p₁.offset := by
          rw [hadds.eq]
          refine Walk.Ordered.add ⟨?_, ?_, ?_⟩ (hadds.behind hat.behind) hadds.le_stop hlt _ _
          · exact hadds.regions ▸ hordered.pairwise
          · exact hadds.regions ▸ hordered.nonempty
          · rw [hadds.start, hadds.regions]
            exact hordered.start
        have hopen : w₁.start.isSome = p.flag fdt inc excProp tag := by
          rw [hadds.eq, Walk.add_start_isSome]
        obtain ⟨hsize, hfinal, hstart, hbefore, hthere⟩ := ih (hadds.at hat.behind) hordered₁ hloop
        refine ⟨hlt.trans hsize, hfinal, hstart, fun x hx => ?_,
          fun q b tag' next' hflagged htag' => ?_⟩
        · rw [hbefore x (by omega), hadds.covers_before hat.behind hx]
        · obtain heq | ⟨⟨r, b'⟩, ⟨tag'', next'', htag'', hwalk, hb⟩, hflagged⟩ := hflagged.cases_head
          · cases heq
            cases htag.symm.trans htag'
            refine ⟨hsize.le, fun x hx hxlt => ?_⟩
            rw [hbefore x hxlt, hadds.covers_here hat.behind hx hxlt]
          · cases htag.symm.trans htag''
            cases hadds.walk.symm.trans hwalk
            obtain rfl : b' = w₁.start.isSome := hb.trans hopen.symm
            exact hthere q b tag' next' hflagged htag'

/-! ## Nodes by their names -/

structure Spot where
  offset : Nat
  names : List (List UInt8)
  deriving DecidableEq

def Spot.step (fdt : Fdt) (s : Spot) : Option Spot :=
  match fdtNextTag fdt s.offset with
  | (.beginNode, .ok next) => some ⟨next, fdtGetName fdt s.offset :: s.names⟩
  | (.endNode, .ok next) => some ⟨next, s.names.tail⟩
  | (.prop, .ok next) => some { s with offset := next }
  | (.nop, .ok next) => some { s with offset := next }
  | _ => none

def Reached (fdt : Fdt) : Spot → Prop :=
  Relation.ReflTransGen (fun s t => s.step fdt = some t) ⟨0, []⟩

theorem Reached.mem_of_closed {spots : List Spot} (h : Reached fdt s) (hroot : ⟨0, []⟩ ∈ spots)
    (hclosed : ∀ s ∈ spots, (s.step fdt).all (· ∈ spots) = true) : s ∈ spots := by
  induction h with
  | refl => exact hroot
  | tail _ hstep ih =>
    have := hclosed _ ih
    rw [hstep] at this
    simpa using this

/-- The path of a node from the names of the nodes around it and its own: each of them but
that of the root after a slash. -/
def fullPath (names : List (List UInt8)) : List UInt8 :=
  if names.length = 1 then [0x2f] else names.dropLast.reverse.flatMap fun name => 0x2f :: name

def Named (fdt : Fdt) : Prop :=
  ∀ s next, Reached fdt s → fdtNextTag fdt s.offset = (.beginNode, .ok next) →
    (fdtGetName fdt s.offset = [] ↔ s.names = []) ∧ 0x2f ∉ fdtGetName fdt s.offset

def InNode (inc : List (List UInt8)) (names : List (List UInt8)) : Prop :=
  names ≠ [] ∧ fullPath names ∈ inc

def Spot.Wanted (fdt : Fdt) (inc excProp : List (List UInt8)) (s : Spot) : Tag → Prop
  | .beginNode => InNode inc (fdtGetName fdt s.offset :: s.names) ∨ InNode inc s.names
  | .endNode => InNode inc s.names ∨ InNode inc s.names.tail
  | .prop => InNode inc s.names ∧ propName fdt s.offset ∉ excProp
  | .nop => InNode inc s.names
  | .fdtEnd => True

theorem fullPath_cons (name : List UInt8) (h : names ≠ []) :
    fullPath (name :: names) = (if names.length = 1 then [] else fullPath names) ++ 0x2f :: name := by
  obtain ⟨outer, names, rfl⟩ := exists_cons_of_ne_nil h
  have hparts : fullPath (name :: outer :: names) =
      ((outer :: names).dropLast.reverse.flatMap fun name => 0x2f :: name) ++ 0x2f :: name := by
    rw [fullPath, if_neg (by simp), dropLast_cons_cons, reverse_cons, flatMap_append,
      flatMap_singleton]
  rw [hparts]
  split
  next hone =>
    obtain rfl : names = [] := by simpa using hone
    rfl
  next hne => rw [fullPath, if_neg hne]

def paths : List (List UInt8) → List (List UInt8)
  | [] => []
  | name :: names => fullPath (name :: names) :: paths names

def PathAt (path : List UInt8) (names : List (List UInt8)) : Prop :=
  path = fullPath names ∨ names.length = 1 ∧ path = []

def GoodNames : List (List UInt8) → Prop
  | [] => True
  | name :: outer => ((name = [] ↔ outer = []) ∧ 0x2f ∉ name) ∧ GoodNames outer

theorem childPath_eq (hpath : PathAt path names) (hgood : GoodNames (name :: names)) :
    childPath path name = fullPath (name :: names) := by
  obtain ⟨⟨hempty, -⟩, hgood⟩ := hgood
  match names, hpath with
  | [], hpath =>
    obtain rfl : path = [] := hpath.resolve_right (by simp)
    obtain rfl := hempty.mpr rfl
    rfl
  | [root], hpath =>
    rw [fullPath_cons name (by simp)]
    obtain rfl | ⟨-, rfl⟩ := hpath
    · rfl
    · rfl
  | outer :: outer' :: names, hpath =>
    obtain rfl := hpath.resolve_right (by simp)
    have hne : outer ≠ [] := fun h => absurd (hgood.1.1.mp h) (by simp)
    have hlong : (fullPath (outer :: outer' :: names)).length ≠ 1 := by
      have := length_pos_iff.mpr hne
      rw [fullPath_cons outer (by simp), length_append, length_cons (a := 0x2f)]
      omega
    rw [childPath, if_neg hlong, fullPath_cons name (by simp), if_neg (by simp)]
    simp

theorem parentPath_append (h : 0x2f ∉ name) : parentPath (front ++ 0x2f :: name) = front := by
  have hname : ∀ b ∈ name.reverse, (decide (b ≠ 0x2f)) = true := by
    intro b hb
    have : b ≠ 0x2f := fun heq => h (heq ▸ mem_reverse.mp hb)
    simpa using this
  rw [parentPath, reverse_append, reverse_cons, append_assoc,
    dropWhile_append_of_pos hname]
  simp

theorem parentPath_at (hpath : PathAt path (name :: names)) (hgood : GoodNames (name :: names)) :
    PathAt (parentPath path) names := by
  cases names with
  | nil =>
    obtain rfl | ⟨-, rfl⟩ := hpath
    · exact .inl rfl
    · exact .inl rfl
  | cons outer names =>
    obtain rfl := hpath.resolve_right (by simp)
    rw [fullPath_cons name (by simp), parentPath_append hgood.1.2]
    split
    next hone => exact .inr ⟨hone, rfl⟩
    next => exact .inl rfl

/-! ## The two walks -/

structure Matches (p : Place) (s : Spot) : Prop where
  offset : p.offset = s.offset
  nodes : p.nodes = paths s.names
  path : PathAt p.path s.names
  good : GoodNames s.names

theorem matches_root : Matches Place.root ⟨0, []⟩ := ⟨rfl, rfl, .inl rfl, trivial⟩

theorem PathAt.nil_tail (h : PathAt path names) (hgood : GoodNames names) :
    PathAt (parentPath path) names.tail := by
  cases names with
  | nil =>
    obtain rfl : path = [] := h.resolve_right (by simp)
    exact .inl rfl
  | cons name names => exact parentPath_at h hgood

theorem paths_tail (names : List (List UInt8)) : (paths names).tail = paths names.tail := by
  cases names <;> rfl

theorem GoodNames.tail (h : GoodNames names) : GoodNames names.tail := by
  cases names with
  | nil => exact h
  | cons name names => exact h.2

theorem Matches.step (h : Matches p s)
    (hname : ∀ next, fdtNextTag fdt s.offset = (.beginNode, .ok next) →
      (fdtGetName fdt s.offset = [] ↔ s.names = []) ∧ 0x2f ∉ fdtGetName fdt s.offset) :
    Option.Rel Matches (walkStep fdt p) (s.step fdt) := by
  obtain ⟨offset, path, nodes⟩ := p
  obtain ⟨_, names⟩ := s
  obtain ⟨hoffset, hnodes, hpath, hgood⟩ := h
  dsimp only at hname hoffset hnodes hpath hgood
  subst hoffset hnodes
  rcases htag : fdtNextTag fdt offset with ⟨tag, next⟩
  simp only [walkStep, Spot.step, htag]
  cases next with
  | error e => cases tag <;> exact .none
  | ok next =>
    cases tag with
    | beginNode =>
      have hgood' : GoodNames (fdtGetName fdt offset :: names) := ⟨hname next htag, hgood⟩
      have hchild := childPath_eq hpath hgood'
      exact .some ⟨rfl, by simp [hchild, paths], .inl hchild, hgood'⟩
    | endNode => exact .some ⟨rfl, paths_tail names, hpath.nil_tail hgood, hgood.tail⟩
    | prop => exact .some ⟨rfl, rfl, hpath, hgood⟩
    | nop => exact .some ⟨rfl, rfl, hpath, hgood⟩
    | fdtEnd => exact .none

theorem not_inNode_nil : ¬ InNode inc [] := fun h => h.1 rfl

theorem inNode_cons :
    InNode inc (name :: names) ↔ fullPath (name :: names) ∈ inc := by simp [InNode]

theorem two_le_wantOf_paths (names : List (List UInt8)) :
    2 ≤ wantOf inc (paths names) ↔ InNode inc names := by
  cases names with
  | nil => simp [paths, wantOf, not_inNode_nil]
  | cons name names =>
    have hle := wantOf_le inc (paths names)
    rw [inNode_cons, paths, wantOf]
    split
    next h => simp [h]
    next h =>
      simp only [h, iff_false]
      omega

theorem wantOf_paths_ne_zero (names : List (List UInt8)) :
    wantOf inc (paths names) ≠ 0 ↔ InNode inc names ∨ InNode inc names.tail := by
  cases names with
  | nil => simp [paths, wantOf, not_inNode_nil]
  | cons name names =>
    rw [inNode_cons, tail_cons, ← two_le_wantOf_paths names, paths, wantOf]
    split
    next h => simp [h]
    next h =>
      simp only [h, false_or]
      omega

theorem Matches.flag_iff (h : Matches p s) (hname : tag = .beginNode →
      (fdtGetName fdt s.offset = [] ↔ s.names = []) ∧ 0x2f ∉ fdtGetName fdt s.offset) :
    p.flag fdt inc excProp tag = true ↔ s.Wanted fdt inc excProp tag := by
  cases tag with
  | beginNode =>
    have hchild := childPath_eq h.path ⟨hname rfl, h.good⟩
    have hne := @wantOf_paths_ne_zero inc (fdtGetName fdt s.offset :: s.names)
    rw [paths, tail_cons] at hne
    simpa [Place.flag, Spot.Wanted, h.offset, h.nodes, hchild] using hne
  | endNode => simpa [Place.flag, Spot.Wanted, h.nodes] using wantOf_paths_ne_zero s.names
  | prop => simp [Place.flag, Spot.Wanted, h.offset, h.nodes, two_le_wantOf_paths]
  | nop => simp [Place.flag, Spot.Wanted, h.nodes, two_le_wantOf_paths]
  | fdtEnd => simp [Place.flag, Spot.Wanted]

def Spot.Open (fdt : Fdt) (inc excProp : List (List UInt8)) (s : Spot) : Prop :=
  ∃ s₀ tag next, Reached fdt s₀ ∧ s₀.step fdt = some s ∧
    fdtNextTag fdt s₀.offset = (tag, .ok next) ∧ s₀.Wanted fdt inc excProp tag

theorem Matches.flagged_step (h : Matches p s) (hnamed : Named fdt) (hreached : Reached fdt s)
    (hstep : s.step fdt = some t) (hflagged : Flagged fdt inc excProp (Place.root, false) (p, b)) :
    ∃ q tag next, Matches q t ∧ fdtNextTag fdt s.offset = (tag, .ok next) ∧
      Flagged fdt inc excProp (Place.root, false) (q, p.flag fdt inc excProp tag) := by
  have hrel := h.step (hnamed s · hreached)
  rw [hstep] at hrel
  obtain ⟨q, hq⟩ : ∃ q, walkStep fdt p = some q := by
    cases hwalk : walkStep fdt p with
    | none => rw [hwalk] at hrel; cases hrel
    | some q => exact ⟨q, rfl⟩
  rw [hq] at hrel
  obtain ⟨tag, next, htag⟩ : ∃ tag next, fdtNextTag fdt s.offset = (tag, .ok next) := by
    rcases htag : fdtNextTag fdt s.offset with ⟨tag, e | next⟩
    · rw [Spot.step, htag] at hstep
      cases tag <;> cases hstep
    · exact ⟨tag, next, rfl⟩
  cases hrel with
  | some hmatches =>
    exact ⟨q, tag, next, hmatches, htag,
      hflagged.tail ⟨tag, next, h.offset ▸ htag, hq, rfl⟩⟩

theorem Reached.flagged (h : Reached fdt s) (hnamed : Named fdt) :
    ∃ p b, Matches p s ∧ Flagged fdt inc excProp (Place.root, false) (p, b) ∧
      (b = true → s.Open fdt inc excProp) := by
  induction h with
  | refl => exact ⟨_, false, matches_root, .refl, nofun⟩
  | tail hs hstep ih =>
    obtain ⟨p, b, hmatches, hflagged, -⟩ := ih
    obtain ⟨q, tag, next, hmatches', htag, hflagged'⟩ :=
      hmatches.flagged_step hnamed hs hstep hflagged
    refine ⟨q, _, hmatches', hflagged', fun hflag => ⟨_, tag, next, hs, hstep, htag, ?_⟩⟩
    exact (hmatches.flag_iff fun h => hnamed _ next hs (h ▸ htag)).mp hflag

theorem Spot.Open.flagged (h : s.Open fdt inc excProp) (hnamed : Named fdt) :
    ∃ p, Matches p s ∧ Flagged fdt inc excProp (Place.root, false) (p, true) := by
  obtain ⟨s₀, tag, next, hreached, hstep, htag, hwanted⟩ := h
  obtain ⟨p, b, hmatches, hflagged, -⟩ := hreached.flagged hnamed
  obtain ⟨q, tag', next', hmatches', htag', hflagged'⟩ :=
    hmatches.flagged_step hnamed hreached hstep hflagged
  cases htag.symm.trans htag'
  rw [(hmatches.flag_iff fun h => hnamed _ next hreached (h ▸ htag)).mpr hwanted] at hflagged'
  exact ⟨q, hmatches', hflagged'⟩

/-! ## The regions that are found -/

def CoveredBy (regions : List (Nat × Nat)) (x : Nat) : Prop :=
  ∃ r ∈ regions, r.1 ≤ x ∧ x < r.1 + r.2

/-- Regions in order that cover the tags to be covered and nothing of the other tags, and the
`strings` bytes behind the structure block. -/
structure FoundExactly (fdt : Fdt) (inc excProp : List (List UInt8)) (strings : Nat)
    (regions : List (Nat × Nat)) : Prop where
  nonempty : ∀ r ∈ regions, 0 < r.2
  ordered : regions.Pairwise fun a b => a.1 + a.2 ≤ b.1
  inside : ∀ r ∈ regions, r.1 + r.2 ≤ fdt.sizeDtStruct + strings
  tags : ∀ s tag next, Reached fdt s → fdtNextTag fdt s.offset = (tag, .ok next) →
    ∀ x, s.offset ≤ x → x < next → (CoveredBy regions x ↔ s.Wanted fdt inc excProp tag)
  strings : ∀ x, fdt.sizeDtStruct ≤ x → x < fdt.sizeDtStruct + strings → CoveredBy regions x

def EndsApart (fdt : Fdt) (inc : List (List UInt8)) : Prop :=
  ∀ s t next next', Reached fdt s → s.step fdt = some t →
    fdtNextTag fdt s.offset = (.endNode, .ok next) → fdtNextTag fdt t.offset = (.endNode, .ok next') →
    InNode inc s.names → InNode inc t.names ∨ InNode inc t.names.tail

theorem endsApart_iff : EndsApart fdt inc ↔ ∀ s next, Reached fdt s →
    fdtNextTag fdt s.offset = (.endNode, .ok next) → s.Open fdt inc excProp →
    s.Wanted fdt inc excProp .endNode := by
  refine ⟨fun hapart s next hreached htag hopen => ?_, fun h s t next next' hs hstep htag htag' hin => ?_⟩
  · obtain ⟨s₀, tag, next₀, hs₀, hstep, htag₀, hwanted⟩ := hopen
    have hstep' := hstep
    rw [Spot.step, htag₀] at hstep'
    cases tag with
    | beginNode =>
      cases hstep'
      exact hwanted
    | endNode =>
      obtain hin | hin := hwanted
      · exact hapart s₀ s next₀ next hs₀ hstep htag₀ htag hin
      · cases hstep'
        exact .inl hin
    | prop =>
      cases hstep'
      exact .inl hwanted.1
    | nop =>
      cases hstep'
      exact .inl hwanted
    | fdtEnd => cases hstep'
  · exact h t next' (hs.tail hstep) htag' ⟨s, .endNode, next, hs, hstep, htag, .inl hin⟩

theorem coveredBy_reverse : CoveredBy (r :: regions).reverse x ↔
      CoveredBy regions x ∨ (r.1 ≤ x ∧ x < r.1 + r.2) := by
  simp only [CoveredBy, mem_reverse, mem_cons, exists_eq_or_imp]
  exact or_comm

theorem fdtFindRegionsTab_eq (h : fdtFindRegionsTab fdt inc excProp maxRegions pathLen sizeDtStrings
      addStringTab = some (.ok (count, regions))) (hcount : count ≤ maxRegions) :
    ∃ w last, regionLoop fdt inc excProp maxRegions pathLen fdt.rounds 0 ⟨[], none, [], 0, []⟩ =
        some (.ok (w, last, .ok fdt.sizeDtStruct)) ∧
      regions = ((w.start.getD last, fdt.sizeDtStruct - w.start.getD last +
        (if addStringTab then sizeDtStrings else 0)) :: w.regions).reverse := by
  rw [fdtFindRegionsTab] at h
  split at h
  next => cases h
  next => cases h
  next w last after hloop =>
    split at h
    next hafter =>
      subst hafter
      cases h
      exact ⟨w, last, hloop, take_of_length_le hcount⟩
    next => cases h

theorem fdtFindRegionsTab_covers (hnamed : Named fdt)
    (h : fdtFindRegionsTab fdt inc excProp maxRegions pathLen sizeDtStrings addStringTab =
      some (.ok (count, regions))) (hcount : count ≤ maxRegions) :
    (∀ r ∈ regions, 0 < r.2) ∧ (regions.Pairwise fun a b => a.1 + a.2 ≤ b.1) ∧
    (∀ r ∈ regions, r.1 + r.2 ≤ fdt.sizeDtStruct + if addStringTab then sizeDtStrings else 0) ∧
    (∀ x, fdt.sizeDtStruct ≤ x →
      x < fdt.sizeDtStruct + (if addStringTab then sizeDtStrings else 0) → CoveredBy regions x) ∧
    ∀ s tag next, Reached fdt s → fdtNextTag fdt s.offset = (tag, .ok next) →
      ∀ x, s.offset ≤ x → x < next → (CoveredBy regions x ↔ s.Wanted fdt inc excProp tag ∨
        tag = .endNode ∧ s.Open fdt inc excProp) := by
  obtain ⟨w, last, hloop, hregions⟩ := fdtFindRegionsTab_eq h hcount
  generalize (if addStringTab then sizeDtStrings else 0) = strings at hregions ⊢
  have hat : Walk.At inc ⟨[], none, [], 0, []⟩ Place.root := ⟨rfl, rfl, rfl, ⟨by simp, by simp⟩⟩
  obtain ⟨-, hordered, hopen, -, hcovers⟩ :=
    regionLoop_exact hat ⟨List.Pairwise.nil, by simp, by simp⟩ hloop
  obtain ⟨start, hstart⟩ := Option.isSome_iff_exists.mp hopen
  obtain ⟨hlt, hbefore⟩ := hordered.start start hstart
  rw [hstart, Option.getD_some] at hregions
  subst hregions
  refine ⟨fun r hr => ?_, ?_, fun r hr => ?_, fun x hx hxlt => ?_, ?_⟩
  · obtain rfl | hr := mem_cons.mp (mem_reverse.mp hr)
    · dsimp only
      omega
    · exact hordered.nonempty r hr
  · rw [pairwise_reverse]
    exact pairwise_cons.mpr ⟨hbefore, hordered.pairwise⟩
  · obtain rfl | hr := mem_cons.mp (mem_reverse.mp hr)
    · dsimp only
      omega
    · have := hbefore r hr
      omega
  · exact coveredBy_reverse.mpr (.inr (by dsimp only; omega))
  · intro s tag next hreached htag x hx hxlt
    have hflag {p : Place} (hmatches : Matches p s) :
        p.flag fdt inc excProp tag = true ↔ s.Wanted fdt inc excProp tag :=
      hmatches.flag_iff fun h => hnamed s next hreached (h ▸ htag)
    have hwalk {x : Nat} (hx : x < fdt.sizeDtStruct) : w.Covers fdt.sizeDtStruct x ↔
        CoveredBy ((start, fdt.sizeDtStruct - start + strings) :: w.regions).reverse x := by
      rw [coveredBy_reverse, Walk.Covers, hstart]
      simp only [Option.some.injEq, exists_eq_left', CoveredBy]
      refine or_congr Iff.rfl ?_
      omega
    by_cases hopened : s.Open fdt inc excProp
    · obtain ⟨p, hmatches, hflagged⟩ := hopened.flagged hnamed
      obtain ⟨hnext, hthere⟩ := hcovers p true tag next hflagged (hmatches.offset ▸ htag)
      rw [← hwalk (by omega), hthere x (hmatches.offset ▸ hx) hxlt, hflag hmatches]
      simp [hopened]
    · obtain ⟨p, b, hmatches, hflagged, hb⟩ := hreached.flagged hnamed
      obtain ⟨hnext, hthere⟩ := hcovers p b tag next hflagged (hmatches.offset ▸ htag)
      rw [← hwalk (by omega), hthere x (hmatches.offset ▸ hx) hxlt, hflag hmatches]
      simp [hopened, mt hb hopened]

def oneNode : Fdt := Fdt.ofRoot [] (nodeBytes "" [nodeBytes "a" []])

theorem named_oneNode : Named oneNode := by
  intro s next hreached htag
  let spots : List Spot :=
    [⟨0, []⟩, ⟨8, [[]]⟩, ⟨16, [ascii "a", []]⟩, ⟨20, [[]]⟩, ⟨24, []⟩]
  have hmem : s ∈ spots := hreached.mem_of_closed (by decide +kernel) (by decide +kernel)
  have hall : ∀ s ∈ spots, (fdtNextTag oneNode s.offset).1 = .beginNode →
      (fdtGetName oneNode s.offset = [] ↔ s.names = []) ∧ 0x2f ∉ fdtGetName oneNode s.offset := by
    decide +kernel
  exact hall s hmem (by rw [htag])

end UBoot.Libfdt
