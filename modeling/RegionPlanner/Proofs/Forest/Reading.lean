import RegionPlanner.Proofs.Forest.Root

/-!
# The nodes of records

A record can be read into a node if and only if its regions are in the table and it has counters.
-/

namespace RegionPlanner

/-- A record whose regions are in the table and which has counters. -/
structure Record.Readable (table : RegionTable) (record : Record) : Prop where
  region : record.region ∈ table.regions
  callSite : record.callSite ≠ 0 → record.callSite ∈ table.callSites
  stats : record.stats ≠ []

/-- The node of a record before it is linked to others. -/
noncomputable def readNode (table : RegionTable) (records : List Record) (place : Nat) (record : Record) : Node :=
  (Node.ofRecord table (placeOf records) (classifiedAt records place record) place).toOption.getD default

variable {table : RegionTable} {records : List Record} {record : Record} {place : Nat} {node : Node}

theorem ofRecord_eq_ok {index : UidIndex} : Node.ofRecord table index record place = .ok node ↔
    ∃ region callSite profile, table.region record.region = .ok region ∧ record.site table = .ok callSite ∧
      record.profile = .ok profile ∧
      { id := place, uid := record.uid, region, callSite, kind := record.kind, instances := record.instances,
        parallel := record.parallel, children := record.children.filterMap index, profile } = node := by
  unfold Node.ofRecord
  simp only [bind_eq_ok, pure_eq_ok]
  constructor
  · rintro ⟨region, hregion, callSite, hsite, profile, hprofile, hnode⟩
    exact ⟨region, callSite, profile, hregion, hsite, hprofile, hnode⟩
  · rintro ⟨region, callSite, profile, hregion, hsite, hprofile, hnode⟩
    exact ⟨region, hregion, callSite, hsite, profile, hprofile, hnode⟩

/-! ### When reading succeeds -/

theorem region_isOk {id : UInt64} : (∃ region, table.region id = .ok region) ↔ id ∈ table.regions := by
  unfold RegionTable.region
  rw [Std.TreeMap.mem_iff_isSome_getElem?]
  cases table.regions[id]? <;> simp

theorem site_isOk : (∃ site, record.site table = .ok site) ↔
    (record.callSite ≠ 0 → record.callSite ∈ table.callSites) := by
  unfold Record.site RegionTable.callSite
  rw [Std.TreeMap.mem_iff_isSome_getElem?]
  by_cases hzero : record.callSite = 0
  · simp [hzero]
  · simp only [hzero, if_false, map_eq_ok]
    cases table.callSites[record.callSite]? <;> simp [hzero]

theorem profile_isOk : (∃ profile, record.profile = .ok profile) ↔ record.stats ≠ [] := by
  unfold Record.profile
  cases record.stats with
  | nil => simp
  | cons first rest => cases rest <;> simp

theorem ofRecord_isOk {index : UidIndex} :
    (∃ node, Node.ofRecord table index record place = .ok node) ↔ record.Readable table := by
  constructor
  · rintro ⟨node, h⟩
    obtain ⟨region, site, profile, hregion, hsite, hprofile, -⟩ := ofRecord_eq_ok.mp h
    exact ⟨region_isOk.mp ⟨region, hregion⟩, site_isOk.mp ⟨site, hsite⟩, profile_isOk.mp ⟨profile, hprofile⟩⟩
  · rintro ⟨hregion, hsite, hprofile⟩
    obtain ⟨region, hregion⟩ := region_isOk.mpr hregion
    obtain ⟨site, hsite⟩ := site_isOk.mpr hsite
    obtain ⟨profile, hprofile⟩ := profile_isOk.mpr hprofile
    exact ⟨_, ofRecord_eq_ok.mpr ⟨region, site, profile, hregion, hsite, hprofile, rfl⟩⟩

theorem readable_classifiedAt : (classifiedAt records place record).Readable table ↔ record.Readable table := by
  have hinner : record.toInner.Readable table ↔ record.Readable table := by
    unfold Record.toInner
    split
    · exact ⟨fun ⟨h₁, h₂, h₃⟩ => ⟨h₁, h₂, h₃⟩, fun ⟨h₁, h₂, h₃⟩ => ⟨h₁, h₂, h₃⟩⟩
    · rfl
  unfold classifiedAt
  split
  · exact hinner
  · rfl

/-! ### What is read -/

theorem readNode_eq_ok : Node.ofRecord table (placeOf records) (classifiedAt records place record) place = .ok node ↔
    record.Readable table ∧ readNode table records place record = node := by
  have hreadable : (∃ node, Node.ofRecord table (placeOf records) (classifiedAt records place record) place = .ok node) ↔
      record.Readable table := ofRecord_isOk.trans readable_classifiedAt
  unfold readNode
  rw [← hreadable]
  constructor
  · intro h
    rw [h]
    exact ⟨⟨node, rfl⟩, rfl⟩
  · rintro ⟨⟨found, h⟩, rfl⟩
    rw [h]
    rfl

/-- Reading takes uid, kind and children over. -/
theorem readNode_fields (h : record.Readable table) :
    (readNode table records place record).id = place ∧
    (readNode table records place record).uid = record.uid ∧
    (readNode table records place record).kind = (classifiedAt records place record).kind ∧
    (readNode table records place record).parent = none ∧
    (readNode table records place record).children = record.children.filterMap (placeOf records) ∧
    (readNode table records place record).target = none := by
  obtain ⟨region, callSite, profile, -, -, -, hnode⟩ := ofRecord_eq_ok.mp (readNode_eq_ok.mpr ⟨h, rfl⟩)
  rw [← hnode]
  exact ⟨rfl, classifiedAt_uid, rfl, rfl, by rw [classifiedAt_children], rfl⟩

theorem readNode_profile (h : record.Readable table) :
    (classifiedAt records place record).profile = .ok (readNode table records place record).profile := by
  obtain ⟨region, callSite, profile, -, -, hprofile, hnode⟩ := ofRecord_eq_ok.mp (readNode_eq_ok.mpr ⟨h, rfl⟩)
  rw [← hnode, hprofile]

theorem profile_stats {profile : Profile} (h : record.profile = .ok profile) : profile.stats = record.stats := by
  unfold Record.profile at h
  split at h
  · cases h
  · next stat hstats =>
    rw [hstats]
    split at h <;> cases h <;> rfl
  · next outermost deeper hdeeper hstats =>
    cases h
    exact hstats.symm

theorem classifiedAt_stats : (classifiedAt records place record).stats = record.stats := by
  unfold classifiedAt Record.toInner
  split
  · split <;> rfl
  · rfl

theorem readNode_stats (h : record.Readable table) :
    (readNode table records place record).profile.stats = record.stats :=
  (profile_stats (readNode_profile h)).trans classifiedAt_stats

theorem readNodes_eq_ok {nodes : List Node} :
    ((reclassified records).zipIdx.mapM fun (record, place) => Node.ofRecord table (placeOf records) record place) =
      .ok nodes ↔
    (∀ (place : Nat) (record : Record), records[place]? = some record → record.Readable table) ∧
      records.mapIdx (readNode table records) = nodes := by
  rw [reclassified_zipIdx, List.mapM_map]
  apply zipIdx_mapM_eq_ok
  intro place record _ node
  exact readNode_eq_ok

end RegionPlanner
