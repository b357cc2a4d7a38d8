import MapAlgebra.Pass.Plan
import MapAlgebra.Proofs.Catalog.WellFormed

/-!
# How a catalog is represented

What can be relied on in every catalog that registrations, declarations, look-ups and compilations
have brought about, whether they succeeded or not: `Catalog.Representation`. Main statement:
**`Catalog.Reachable.representation`**. No look-up of a slot, an input or a band goes astray in such
a catalog, and none does when a plan is made (`Catalog.WellFormed.exists_role`,
`Catalog.WellFormed.exists_plan`).
-/

namespace MapAlgebra

/-! ### Plans -/

/-- The statistics of a band that is there. -/
theorem Source.exists_statistics (s : Source) {band : Nat} (h : band < s.raster.bands) :
    ∃ statistics, s.statistics band = .ok statistics := by
  have hband : ∃ samples, s.raster.band band = .ok samples := ⟨_, if_pos h⟩
  obtain ⟨samples, hsamples⟩ := hband
  unfold Source.statistics
  split
  · exact ⟨_, bind_eq_ok_iff.2 ⟨samples, hsamples, rfl⟩⟩
  · exact ⟨_, bind_eq_ok_iff.2 ⟨samples, hsamples, rfl⟩⟩

/-- A variable whose input and band are there has a role, and the role is fixed only if the variable
has been declared. -/
theorem Plan.exists_roleOf {inputs : List Source} {k : Kind} (h : k.InRange inputs) :
    ∃ role, roleOf inputs k = .ok role ∧ (role = .fixed → k.listedAs? = none) := by
  cases k with
  | pixel | band | window =>
    obtain ⟨s, hs, -⟩ := h
    simp only [roleOf, hs]
    exact ⟨_, rfl, fun hfixed => nomatch hfixed⟩
  | physicalX | physicalY =>
    obtain ⟨s, hs⟩ := h
    simp only [roleOf, hs]
    exact ⟨_, rfl, fun hfixed => nomatch hfixed⟩
  | statistic image band which =>
    obtain ⟨s, hs, hband⟩ := h
    obtain ⟨statistics, hstatistics⟩ := s.exists_statistics hband
    simp only [roleOf, hs, hstatistics]
    exact ⟨_, rfl, fun hfixed => nomatch hfixed⟩
  | indexX | indexY => exact ⟨_, rfl, fun hfixed => nomatch hfixed⟩
  | constant | matrix => exact ⟨_, rfl, fun _ => rfl⟩

namespace Catalog

variable {c c' : Catalog}

namespace WellFormed

/-- A slot that a pass needs holds a variable, which has a role. -/
theorem exists_role (h : c.WellFormed) {es : List Compiled} {slot : Nat}
    (hslot : slot ∈ Plan.referenced c es) :
    ∃ v role, c.slots[slot]? = some v ∧ Plan.roleOf c.inputs v.kind = .ok role ∧
      (role = .fixed → v.kind.listedAs? = none) := by
  have hlt : slot < c.slots.size := List.mem_range.1 (List.mem_filter.1 hslot).1
  have hv : c.slots[slot]? = some c.slots[slot] := Array.getElem?_eq_getElem hlt
  obtain ⟨role, hrole, hfixed⟩ := Plan.exists_roleOf (h.inRange hv)
  exact ⟨_, role, hv, hrole, hfixed⟩

theorem exists_addSlot (h : c.WellFormed) (plan : Plan) (slot : Nat) :
    ∃ plan', Plan.addSlot c plan slot = .ok plan' := by
  unfold Plan.addSlot
  cases hv : c.slots[slot]? with
  | none => exact ⟨plan, rfl⟩
  | some v =>
    obtain ⟨role, hrole, -⟩ := Plan.exists_roleOf (h.inRange hv)
    dsimp only
    rw [hrole]
    cases role <;> exact ⟨_, rfl⟩

/-- A well-formed catalog has a plan for any formulas. -/
theorem exists_plan (h : c.WellFormed) (es : List Compiled) :
    ∃ plan, Plan.ofCompiled c es = .ok plan := by
  have hfold : ∀ (slots : List Nat) (plan : Plan),
      ∃ plan', slots.foldlM (Plan.addSlot c) plan = .ok plan' := by
    intro slots
    induction slots with
    | nil => exact fun plan => ⟨plan, rfl⟩
    | cons slot slots ih =>
      intro plan
      obtain ⟨mid, hmid⟩ := h.exists_addSlot plan slot
      obtain ⟨plan', hplan'⟩ := ih mid
      exact ⟨plan', bind_eq_ok_iff.2 ⟨mid, hmid, hplan'⟩⟩
  exact hfold _ _

/-- A name that leads to a slot leads to its variable. -/
theorem lookup_eq_ok (h : c.WellFormed) {name : String} {slot : Nat}
    (hname : c.names.lookup name = some slot) :
    ∃ v, c.slots[slot]? = some v ∧ c.lookup name = .ok v := by
  have hlt := h.slot_lt _ (mem_of_lookup hname)
  have hv : c.slots[slot]? = some c.slots[slot] := Array.getElem?_eq_getElem hlt
  refine ⟨_, hv, ?_⟩
  unfold Catalog.lookup
  rw [hname, Option.bind_some, hv]

/-- Two variables under one name are one. -/
theorem slot_eq_of_name_eq (h : c.WellFormed) {slot slot' : Nat} {v v' : Variable}
    (hv : c.slots[slot]? = some v) (hv' : c.slots[slot']? = some v') (hname : v.name = v'.name) :
    slot = slot' := by
  have hlookup := h.lookup_name hv
  rw [hname, h.lookup_name hv'] at hlookup
  exact (Option.some.inj hlookup).symm

end WellFormed

/-! ### The representation -/

/-- What can be relied on in a catalog. -/
structure Representation (c : Catalog) : Prop where
  /-- A name leads to a slot that is there. -/
  names : ∀ entry ∈ c.names, entry.2 < c.slots.size
  /-- The name a variable is listed under leads to its own slot. -/
  canonical : ∀ (slot : Nat) (v : Variable), c.slots[slot]? = some v →
    c.names.lookup v.name = some slot
  /-- No two variables are listed under one name. -/
  distinct : ∀ (slot slot' : Nat) (v v' : Variable), c.slots[slot]? = some v →
    c.slots[slot']? = some v' → v.name = v'.name → slot = slot'
  /-- The input of a variable is there, and its band is one of the bands of that input. -/
  inRange : ∀ (slot : Nat) (v : Variable), c.slots[slot]? = some v → v.kind.InRange c.inputs
  /-- A root leads to an input that is there. -/
  roots : ∀ entry ∈ c.roots, entry.2 < c.inputs.length
  /-- The positional root of every input leads to it. -/
  positional : ∀ image < c.inputs.length, c.roots.lookup (positionalRoot image) = some image
  /-- The windows are the variables that are windows. -/
  windows : ∀ (key : WindowKey) (slot : Nat), (key, slot) ∈ c.windows ↔
    ∃ name, c.slots[slot]? = some ⟨name, .window key⟩
  /-- A window is there once. -/
  windowsOnce : (c.windows.map (·.1)).Nodup
  /-- The sides of a window are odd, and so not zero. -/
  oddSides : ∀ entry ∈ c.windows, entry.1.window.width % 2 = 1 ∧ 0 < entry.1.window.width ∧
    entry.1.window.height % 2 = 1 ∧ 0 < entry.1.window.height
  /-- No two variables that have not been declared are of one kind. -/
  kindsOnce : ∀ (slot slot' : Nat) (v v' : Variable), c.slots[slot]? = some v →
    c.slots[slot']? = some v' → v.kind = v'.kind → v.kind.listedAs?.isSome = true → slot = slot'
  /-- The variable of a name that is there is found. -/
  found : ∀ (name : String) (slot : Nat), c.names.lookup name = some slot →
    ∃ v, c.slots[slot]? = some v ∧ c.lookup name = .ok v
  /-- The input of a root that is there is found. -/
  inputFound : ∀ (root : String) (image : Nat), c.roots.lookup root = some image →
    ∃ s, c.inputs[image]? = some s
  /-- Whatever formulas a pass is made of, its plan finds the variables of all their slots and the
  inputs and bands of those that are not declared, and it can be made. -/
  planned : ∀ es : List Compiled, (∃ plan, Plan.ofCompiled c es = .ok plan) ∧
    ∀ slot ∈ Plan.referenced c es, ∃ v role, c.slots[slot]? = some v ∧
      Plan.roleOf c.inputs v.kind = .ok role ∧ (role = .fixed → v.kind.listedAs? = none)
  /-- A name that has been resolved to a slot leads to the variable of the slot from then on. -/
  resolved : ∀ (name : String) (slot : Nat) (c' : Catalog), c.resolve name = .ok (slot, c') →
    ∃ v, c'.slots[slot]? = some v ∧ c'.lookup name = .ok v

/-- **Representation**: every reachable catalog has it. -/
theorem Reachable.representation (hc : c.Reachable) : c.Representation := by
  have h := hc.wellFormed
  have hpos : ∀ {n : Nat}, n % 2 = 1 → 0 < n := by omega
  exact {
    names := h.slot_lt
    canonical := fun _ _ hv => h.lookup_name hv
    distinct := fun _ _ _ _ hv hv' hname => h.slot_eq_of_name_eq hv hv' hname
    inRange := fun _ _ hv => h.inRange hv
    roots := h.image_lt
    positional := fun _ himage => h.lookup_root.2 ⟨rfl, himage⟩
    windows := by
      intro key slot
      rw [h.mem_windows]
      constructor
      · exact fun hv => ⟨_, hv⟩
      · rintro ⟨name, hv⟩
        rwa [← h.listed hv (windowName key) rfl]
    windowsOnce := h.nodup_windows
    oddSides := fun entry _ => ⟨entry.1.window.odd_width, hpos entry.1.window.odd_width,
      entry.1.window.odd_height, hpos entry.1.window.odd_height⟩
    kindsOnce := by
      intro slot slot' v v' hv hv' hkind hgenerated
      obtain ⟨name, hname⟩ := Option.isSome_iff_exists.1 hgenerated
      have hname' : v'.name = name := h.listed hv' name (hkind ▸ hname)
      exact h.slot_eq_of_name_eq hv hv' ((h.listed hv name hname).trans hname'.symm)
    found := fun _ _ hname => h.lookup_eq_ok hname
    inputFound := fun _ _ hroot =>
      ⟨_, List.getElem?_eq_getElem (h.image_lt _ (mem_of_lookup hroot))⟩
    planned := fun es => ⟨h.exists_plan es, fun _ hslot => h.exists_role hslot⟩
    resolved := by
      intro name slot c' hresolve
      obtain ⟨hlater, -, hname⟩ := h.resolve hresolve
      exact hlater.lookup_eq_ok hname }

/-! ### A window under an alias -/

namespace Sample

/-- One cell with one sample. -/
def cell : Source := ⟨valueOf (Raster.ofSamples .f64 1 1 1 [7]) (by decide +kernel), false⟩

/-- The catalog of the cell under an alias. -/
def aliased : Nat × Catalog :=
  valueOf (initial.register cell (some "a")) (by decide +kernel)

theorem aliased_reachable : aliased.2.Reachable := by
  have hregister : initial.register cell (some "a") = .ok aliased := eq_ok_valueOf _
  exact .register .refl hregister

/-- The window that a name with leading zeros asks for. -/
def window : Nat × Catalog := valueOf (aliased.2.resolve "ab01N3x01") (by decide +kernel)

end Sample

/-- The window that has been asked for under the alias is found under the same name, in its slot. -/
theorem lookup_aliasedWindow :
    Sample.aliased.2.Reachable ∧
      ∃ v, Sample.window.2.slots[Sample.window.1]? = some v ∧
        Sample.window.2.lookup "ab01N3x01" = .ok v := by
  have hregister : initial.register Sample.cell (some "a") = .ok Sample.aliased := eq_ok_valueOf _
  have hreachable : Sample.aliased.2.Reachable := .register .refl hregister
  have hresolve : Sample.aliased.2.resolve "ab01N3x01" = .ok Sample.window := eq_ok_valueOf _
  exact ⟨hreachable, hreachable.representation.resolved _ _ _ hresolve⟩

end Catalog

end MapAlgebra
