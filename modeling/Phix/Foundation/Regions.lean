import Phix.Foundation.AddressSpace

/-! # Address spaces made of regions

Regions are mapped one after the other, so an address that several regions cover is
translated by the last of them (`AddressSpace.translate_mapAll`), and one that no region
covers as before.
-/

/-- A run of pages, the frame of the first one, and the flags of all of them. -/
structure PageRegion where
  start : BitVec 32
  frame : BitVec 32
  flags : BitVec 32
  pages : ℕ

namespace PageRegion

/-- The address is on a page of the region. -/
def Covers (region : PageRegion) (u : BitVec 32) : Prop :=
  (u - region.start).toNat < 4096 * region.pages

instance (region : PageRegion) (u : BitVec 32) : Decidable (region.Covers u) :=
  inferInstanceAs (Decidable (_ < _))

/-- Where the region places an address. -/
def place (region : PageRegion) (u : BitVec 32) : BitVec 32 := region.frame + (u - region.start)

structure Aligned (region : PageRegion) : Prop where
  start : region.start.toNat % 4096 = 0
  frame : region.frame.toNat % 4096 = 0
  flags : region.flags.toNat < 4096

/-- The last region that covers an address. -/
def last (regions : List PageRegion) (u : BitVec 32) : Option PageRegion :=
  regions.reverse.find? fun region => region.Covers u

variable {regions : List PageRegion} {region : PageRegion} {u : BitVec 32}

@[simp] theorem last_nil (u : BitVec 32) : last [] u = none := rfl

theorem last_concat (regions : List PageRegion) (region : PageRegion) (u : BitVec 32) :
    last (regions ++ [region]) u = if region.Covers u then some region else last regions u := by
  unfold last
  rw [List.reverse_append, List.reverse_singleton, List.singleton_append, List.find?_cons]
  by_cases covers : region.Covers u
  · rw [decide_eq_true covers, if_pos covers]
  · rw [decide_eq_false covers, if_neg covers]

theorem mem_of_last (found : last regions u = some region) : region ∈ regions :=
  List.mem_reverse.mp (List.mem_of_find?_eq_some found)

theorem covers_of_last (found : last regions u = some region) : region.Covers u := by
  unfold last at found
  have covers := List.find?_some found
  rwa [decide_eq_true_eq] at covers

theorem last_eq_none : last regions u = none ↔ ∀ region ∈ regions, ¬ region.Covers u := by
  unfold last
  rw [List.find?_eq_none]
  simp only [List.mem_reverse, decide_eq_true_eq]

/-- The only region that covers an address is the last one. -/
theorem last_of_unique (member : region ∈ regions) (covers : region.Covers u)
    (unique : ∀ other ∈ regions, other.Covers u → other = region) :
    last regions u = some region := by
  rcases found : last regions u with _ | other
  · exact absurd covers (last_eq_none.mp found region member)
  · rw [unique other (mem_of_last found) (covers_of_last found)]

end PageRegion

namespace AddressSpace

open PageRegion

/-- Map regions one after the other. -/
def mapAll (space : AddressSpace) (regions : List PageRegion) : AddressSpace :=
  regions.foldl (fun space region => space.map region.start region.frame region.flags region.pages)
    space

variable (space : AddressSpace)

@[simp] theorem mapAll_nil : space.mapAll [] = space := rfl

theorem mapAll_concat (regions : List PageRegion) (region : PageRegion) :
    space.mapAll (regions ++ [region]) =
      (space.mapAll regions).map region.start region.frame region.flags region.pages := by
  unfold mapAll
  rw [List.foldl_append]
  rfl

/-- An address that is covered has the entry that the last region gives it. -/
theorem mapAll_apply (regions : List PageRegion) (u : BitVec 32) : space.mapAll regions u =
    match last regions u with
    | some region => space.map region.start region.frame region.flags region.pages u
    | none => space u := by
  induction regions using List.reverseRecOn with
  | nil => rfl
  | append_singleton regions region ih =>
      rw [mapAll_concat, last_concat]
      by_cases covers : region.Covers u
      · rw [if_pos covers]
        unfold Covers at covers
        simp only [map, if_pos covers]
      · rw [if_neg covers, map_of_notMem _ covers, ih]

/-- A mapped address has the entry that one of the regions that cover it gives it, or its own. -/
theorem mapAll_cases (regions : List PageRegion) (u : BitVec 32) :
    (∃ region ∈ regions, region.Covers u ∧ space.mapAll regions u =
      (region.frame + BitVec.ofNat 32 ((u - region.start).toNat / 4096 * 4096)) |||
        region.flags) ∨ space.mapAll regions u = space u := by
  rw [mapAll_apply]
  rcases found : last regions u with _ | region
  · exact .inr rfl
  · have covers := covers_of_last found
    exact .inl ⟨region, mem_of_last found, covers, if_pos covers⟩

section Aligned

variable {regions : List PageRegion} {u : BitVec 32}

theorem translate_mapAll (aligned : ∀ region ∈ regions, region.Aligned) :
    (space.mapAll regions).translate u =
      match last regions u with
      | some region => region.place u
      | none => space.translate u := by
  unfold translate
  rw [mapAll_apply]
  rcases found : last regions u with _ | region
  · rfl
  · have shape := aligned region (mem_of_last found)
    exact translate_map space (covers_of_last found) shape.start shape.frame shape.flags

theorem flags_mapAll (aligned : ∀ region ∈ regions, region.Aligned) :
    (space.mapAll regions).flags u =
      match last regions u with
      | some region => region.flags
      | none => space.flags u := by
  unfold AddressSpace.flags
  rw [mapAll_apply]
  rcases found : last regions u with _ | region
  · rfl
  · have shape := aligned region (mem_of_last found)
    exact flags_map space (covers_of_last found) shape.frame shape.flags

end Aligned

end AddressSpace
