import UBoot.Env.AttrEntry
import UBoot.Lib.Checked

/-!
# Both readings of an attribute list

The search for a name and the walk over the list agree on its attributes as long
as the search reads nothing but the list. It reads the character before each
occurrence of the name that it comes to, which the first one of the list does not
have.
-/

namespace UBoot.Env.Attr

open Checked

variable {list name : Text}

/-! ## Both readings -/

def walked (list name : Text) : Lookup :=
  match lastNamed name (visited list) with
  | none => .notFound
  | some e => .found (e.2.getD [])

def Clear (list name : Text) : Prop := name ≠ [] ∧ ∀ p, Examined list name p → ¬ Front list p

theorem lookupLoop_ok_iff_clear :
    (∃ r, lookupLoop list name (list.length + 1) (reverseStrstr list name none) = .ok r) ↔
      Clear list name := by
  by_cases hn : name = []
  · have hfront : Front list 0 := fun k hk => absurd hk (Nat.not_lt_zero k)
    simp [reverseStrstr, hn, lookupLoop_front hfront, Clear]
  · rw [Clear, and_iff_right hn]
    cases hr : reverseStrstr list name none with
    | none =>
      simp only [lookupLoop_none, Except.ok.injEq, exists_eq', true_iff]
      rintro q ⟨p, hp, -⟩
      rw [lastHit_iff hn, hr] at hp
      cases hp
    | some p =>
      have hl := (lastHit_iff hn _ _).mpr hr
      have hle := hl.hit.le hn
      rw [lookupLoop_ok_iff hn (by omega) hl.hit]
      constructor
      · rintro h q ⟨p', hp', hchain⟩
        exact h q (hl.unique hp' ▸ hchain)
      · exact fun h q hchain => h q ⟨p, hl, hchain⟩

theorem envAttrLookup_ok_iff : (∃ r, envAttrLookup (some list) name = .ok r) ↔ Clear list name := by
  rw [← lookupLoop_ok_iff_clear, envAttrLookup]
  cases lookupLoop list name (list.length + 1) (reverseStrstr list name none) with
  | error e => simp [bind, Except.bind]
  | ok entry => cases entry <;> simp [bind, Except.bind]

theorem lookupLoop_lastExact_all (hn : name ≠ []) (hw : Wanted name)
    (h : lookupLoop list name (list.length + 1) (reverseStrstr list name none) = .ok r) :
    LastExact list name (fun _ => True) r := by
  cases hr : reverseStrstr list name none with
  | none =>
    rw [hr, lookupLoop_none] at h
    cases h
    have hfound := reverseStrstr_found list hn none
    rw [hr] at hfound
    exact fun q _ hx => hfound q trivial hx.hit (by simp)
  | some p =>
    have hl := (lastHit_iff hn _ _).mpr hr
    have hle := hl.hit.le hn
    rw [hr] at h
    have hlast := lookupLoop_lastExact hn hw (by omega) hl.hit h
    have hbelow (q : Nat) (hx : Exact list name q) : q ≤ p := hl.last q hx.hit (by simp)
    cases r with
    | none => exact fun q _ hx => hlast q (hbelow q hx) hx
    | some r => exact ⟨hlast.1, fun q _ hx => hlast.2 q (hbelow q hx) hx⟩

theorem envAttrLookup_walked (h : ListText list es) (hw : Wanted name)
    (hr : envAttrLookup (some list) name = .ok r) : r = walked list name := by
  have hn : name ≠ [] := (envAttrLookup_ok_iff.mp ⟨r, hr⟩).1
  rw [envAttrLookup] at hr
  cases hloop : lookupLoop list name (list.length + 1) (reverseStrstr list name none) with
  | error e => simp [hloop, bind, Except.bind] at hr
  | ok entry =>
    have hlast := lookupLoop_lastExact_all hn hw hloop
    have hin := h.lastIn hw hn
    rw [walked, lastNamed_visited h hn]
    cases entry with
    | none =>
      obtain rfl : r = .notFound := by simpa [hloop, bind, Except.bind, eq_comm] using hr
      cases he : lastNamed name es with
      | none => rfl
      | some e =>
        rw [he] at hin
        obtain ⟨p, -, ⟨hx, -⟩, -⟩ := hin
        exact absurd hx (hlast p trivial)
    | some p =>
      obtain rfl : r = .found (attributesOf (list.drop (p + name.length))) := by
        simpa [hloop, bind, Except.bind, eq_comm] using hr
      cases he : lastNamed name es with
      | none =>
        rw [he] at hin
        exact absurd hlast.1 (hin p trivial)
      | some e =>
        rw [he] at hin
        obtain ⟨q, -, ⟨hx, hle⟩, hattributes⟩ := hin
        obtain rfl : p = q := le_antisymm (hle p trivial hlast.1) (hlast.2 q trivial hx)
        rw [hattributes]

/-! ## Flags -/

def flagsFor : Lookup → Nat
  | .found attributes => if attributes = [] then 0 else envParseFlagsToBin attributes
  | _ => 0

@[simp] theorem flagsFor_notFound : flagsFor .notFound = 0 := rfl

def Fits : Lookup → Prop
  | .found attributes => attributes.length ≤ envFlagsAttrMaxLen
  | _ => True

theorem setFlags_apply (name key : Text) (value : Option Text) (flags : Flags) :
    (setFlags name value flags).2 key =
      if key = name then (flags key).map fun _ => flagsFor (.found (value.getD [])) else flags key := by
  cases value <;> rfl

theorem walkEntries_setFlags (es : List (Text × Option Text)) (flags : Flags) (key : Text) :
    (walkEntries setFlags es flags).2 key =
      match lastNamed key es with
      | none => flags key
      | some e => (flags key).map fun _ => flagsFor (.found (e.2.getD [])) := by
  induction es generalizing flags with
  | nil => rfl
  | cons e es ih =>
    obtain ⟨name, value⟩ := e
    have hwalk : walkEntries setFlags ((name, value) :: es) flags =
        walkEntries setFlags es (setFlags name value flags).2 := rfl
    rw [hwalk, ih, setFlags_apply, lastNamed_cons]
    by_cases hkey : key = name
    · cases lastNamed key es <;> simp [hkey, Option.map_map, Function.comp_def]
    · cases lastNamed key es <;> simp [hkey, Ne.symm hkey]

theorem envAttrWalk_setFlags (list : Text) (hkey : flags key = some f) :
    (envAttrWalk (some list) setFlags flags).2 key =
      some (if walked list key = .notFound then f else flagsFor (walked list key)) := by
  rw [envAttrWalk, walkEntries_setFlags, walked, hkey]
  cases lastNamed key (visited list) <;> simp

theorem lookupFlags_eq_ok (h : ListText list es) (hw : Wanted name) :
    lookupFlags (some list) name = .ok r ↔
      (Clear list name ∧ Fits (walked list name)) ∧ r = walked list name := by
  rw [← envAttrLookup_ok_iff, lookupFlags]
  cases hr : envAttrLookup (some list) name with
  | error e => simp [bind, Except.bind]
  | ok r' =>
    rw [← envAttrLookup_walked h hw hr]
    cases r' with
    | found attributes =>
      by_cases hfits : attributes.length ≤ envFlagsAttrMaxLen
      · simp [bind, Except.bind, Fits, hfits, eq_comm]
      · simp [bind, Except.bind, Fits, hfits]
    | noList => simp [bind, Except.bind, Fits, eq_comm]
    | notFound => simp [bind, Except.bind, Fits, eq_comm]

def flagsListed (dynamic : Option Text) (static name : Text) : Lookup :=
  match dynamic with
  | none => walked static name
  | some list => if walked list name = .notFound then walked static name else walked list name

def ClearFlags (dynamic : Option Text) (static name : Text) : Prop :=
  (∀ list ∈ dynamic, Clear list name ∧ Fits (walked list name)) ∧
    ((∀ list ∈ dynamic, walked list name = .notFound) →
      Clear static name ∧ Fits (walked static name))

theorem onFlags_apply (dynamic : Option Text) (static : Text) (hname : flags name = some f) :
    onFlags static dynamic flags name = some (flagsFor (flagsListed dynamic static name)) := by
  have hclear : (fun key => (flags key).map fun _ => 0 : Flags) name = some 0 := by simp [hname]
  have hstatic : (envAttrWalk (some static) setFlags fun key => (flags key).map fun _ => 0).2 name =
      some (flagsFor (walked static name)) := by
    rw [envAttrWalk_setFlags static hclear]
    split
    next h => rw [h, flagsFor_notFound]
    next => rfl
  cases dynamic with
  | none => exact hstatic
  | some list =>
    simp only [onFlags, flagsListed]
    rw [envAttrWalk_setFlags list hstatic]
    split <;> rfl

theorem envFlagsLookup_eq_ok (hd : ∀ list ∈ dynamic, ∃ es, ListText list es)
    (hs : ∃ es, ListText static es) (hw : Wanted name) (r : Lookup) :
    envFlagsLookup dynamic static name = .ok r ↔
      ClearFlags dynamic static name ∧ r = flagsListed dynamic static name := by
  obtain ⟨ss, hss⟩ := hs
  cases dynamic with
  | none =>
    have hnone : envFlagsLookup none static name = lookupFlags (some static) name := rfl
    rw [hnone, lookupFlags_eq_ok hss hw]
    simp [ClearFlags, flagsListed]
  | some list =>
    obtain ⟨ds, hds⟩ := hd list rfl
    have hiff (r : Lookup) := lookupFlags_eq_ok hds hw (r := r)
    have hlookup (r : Lookup) (h : lookupFlags (some list) name = .ok r) :
        envFlagsLookup (some list) static name =
          if r = .notFound then lookupFlags (some static) name else .ok r := by
      obtain ⟨-, rfl⟩ := (hiff r).mp h
      rw [envFlagsLookup, h, walked]
      cases lastNamed name (visited list) <;> rfl
    simp only [ClearFlags, Option.mem_some_iff, forall_eq', flagsListed]
    by_cases hclear : Clear list name ∧ Fits (walked list name)
    · rw [hlookup _ ((hiff _).mpr ⟨hclear, rfl⟩)]
      by_cases hfound : walked list name = .notFound
      · simp only [hfound, ↓reduceIte, lookupFlags_eq_ok hss hw, true_implies]
        rw [hfound] at hclear
        tauto
      · simp [hfound, hclear, eq_comm]
    · simp only [hclear, false_and, iff_false]
      intro hr
      obtain ⟨r', hr', -⟩ := bind_eq_ok.mp hr
      exact hclear ((hiff r').mp hr').1

theorem envFlagsInit_eq (dynamic : Option Text) (static name : Text) :
    envFlagsInit dynamic static name = (envFlagsLookup dynamic static name).map flagsFor := by
  rw [envFlagsInit]
  cases envFlagsLookup dynamic static name with
  | error e => rfl
  | ok r =>
    cases r with
    | found attributes =>
      by_cases h : attributes = [] <;> simp [flagsFor, h, bind, Except.bind, Except.map]
    | _ => rfl

theorem envFlagsInit_eq_ok (hd : ∀ list ∈ dynamic, ∃ es, ListText list es)
    (hs : ∃ es, ListText static es) (hw : Wanted name) (f : Nat) :
    envFlagsInit dynamic static name = .ok f ↔
      ClearFlags dynamic static name ∧ f = flagsFor (flagsListed dynamic static name) := by
  have hlookup (r : Lookup) := envFlagsLookup_eq_ok hd hs hw r
  rw [envFlagsInit_eq]
  cases hr : envFlagsLookup dynamic static name with
  | error e =>
    simp only [Except.map, reduceCtorEq, false_iff]
    rintro ⟨hclear, -⟩
    have := (hlookup _).mpr ⟨hclear, rfl⟩
    rw [hr] at this
    cases this
  | ok r =>
    obtain ⟨hclear, rfl⟩ := (hlookup r).mp hr
    simp [Except.map, hclear, eq_comm]

/-- Both readings of a list agree as long as the search reads nothing but the list,
and a variable has the same flags whichever of them gives them. -/
theorem attrLookup_agrees_iff (name : Text) (hw : Wanted name) :
    (∀ list es, ListText list es →
      (envAttrLookup (some list) name = .ok (walked list name) ↔ Clear list name)) ∧
    ∀ (dynamic : Option Text) (static : Text) (flags : Flags) (f : Nat),
      (∀ list ∈ dynamic, ∃ es, ListText list es) → (∃ es, ListText static es) →
      flags name = some f →
      ((∃ new, envFlagsInit dynamic static name = .ok new ∧
        onFlags static dynamic flags name = some new) ↔ ClearFlags dynamic static name) := by
  constructor
  · intro list es h
    rw [← envAttrLookup_ok_iff]
    constructor
    · exact fun hr => ⟨_, hr⟩
    · rintro ⟨r, hr⟩
      rw [hr, envAttrLookup_walked h hw hr]
  · intro dynamic static flags f hd hs hname
    simp only [envFlagsInit_eq_ok hd hs hw, onFlags_apply dynamic static hname, Option.some.injEq]
    constructor
    · rintro ⟨_, ⟨hclear, -⟩, -⟩
      exact hclear
    · exact fun hclear => ⟨_, ⟨hclear, rfl⟩, rfl⟩

/-- The list `a,b:so`. -/
theorem attrLookup_agrees_second :
    Wanted [98] ∧ ListText [97, 44, 98, 58, 115, 111] [([97], none), ([98], some [115, 111])] ∧
      (envAttrLookup (some [97, 44, 98, 58, 115, 111]) [98] =
        .ok (walked [97, 44, 98, 58, 115, 111] [98]) ↔ Clear [97, 44, 98, 58, 115, 111] [98]) := by
  have hw : Wanted [98] := by unfold Wanted; decide +kernel
  have hlist : ListText [97, 44, 98, 58, 115, 111] [([97], none), ([98], some [115, 111])] := by
    have ha : NameText [97] := ⟨by decide +kernel, ⟨97, rfl, rfl⟩, ⟨97, rfl, rfl⟩⟩
    have hb : NameText [98] := ⟨by decide +kernel, ⟨98, rfl, rfl⟩, ⟨98, rfl, rfl⟩⟩
    have hso : AttributesText [115, 111] := by unfold AttributesText; decide +kernel
    exact .cons (.name 0 0 ha) (.last (.attributes 0 0 0 0 hb hso))
  exact ⟨hw, hlist, (attrLookup_agrees_iff [98] hw).1 _ _ hlist⟩

/-- The lists `a:so` and ` a:so`, an empty name, and the list `b,a:sor` for flags. -/
theorem attrLookup_leaves_list :
    walked [97, 58, 115, 111] [97] = .found [115, 111] ∧
      envAttrLookup (some [97, 58, 115, 111]) [97] = .error .read ∧
      walked [32, 97, 58, 115, 111] [97] = .found [115, 111] ∧
      envAttrLookup (some [32, 97, 58, 115, 111]) [97] = .error .read ∧
      envAttrLookup (some [97]) [] = .error .read ∧
      envFlagsInit (some [98, 44, 97, 58, 115, 111, 114]) [] [97] = .error .write :=
  ⟨rfl, rfl, rfl, rfl, rfl, rfl⟩

end UBoot.Env.Attr
