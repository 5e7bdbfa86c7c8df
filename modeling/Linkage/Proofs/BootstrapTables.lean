import Linkage.Proofs.FileBytes
import Linkage.Proofs.PoolIndices

/-! # Tables of bootstrap methods

    A class keeps the bootstrap methods of its declaration in one flat table: each entry is
    a row with the method, the number of arguments and the arguments, and an entry is found
    by skipping the rows before it.

    * `BootstrapEntry.ofRows?_flatMap_row`: skipping rows finds the entry that was written
      at the place, if no entry has more arguments than a row can count.
    * `ClassFile.Bootstraps`: the entries that the last attribute for them encodes.
    * `bootstrapMethods_found`: a class that is newly defined has exactly the bootstrap
      methods of its declaration, and those of its file if it comes from one. -/

namespace Linkage

open Link

variable {env : Environment} {m m' : Machine} {d : ClassDeclaration} {c : Class}
  {file : ClassFile} {entries : List BootstrapEntry}

/-! ## Rows -/

/-- An entry is found at its place in the rows. -/
theorem BootstrapEntry.ofRows?_flatMap_row
    (hcounts : ∀ e ∈ entries, e.arguments.length ≤ 65535) (k : Nat) :
    ofRows? k (entries.flatMap row) = entries[k]? := by
  induction entries generalizing k with
  | nil => cases k <;> rfl
  | cons e entries ih =>
    have hcount := ClassFile.toNat_count16 (hcounts e List.mem_cons_self)
    rw [List.flatMap_cons, row, List.cons_append, List.cons_append]
    cases k with
    | zero =>
      rw [ofRows?, hcount, if_pos (by simp), List.take_left]
      rfl
    | succ k =>
      rw [ofRows?, hcount, List.drop_left, List.getElem?_cons_succ]
      exact ih (fun e' he' => hcounts e' (List.mem_cons_of_mem e he')) k

theorem Class.bootstrapMethod?_of_rows
    (htable : c.bootstrapTable = entries.flatMap BootstrapEntry.row)
    (hcounts : ∀ e ∈ entries, e.arguments.length ≤ 65535) (k : UInt16) :
    c.bootstrapMethod? k = entries[k.toNat]? := by
  rw [Class.bootstrapMethod?, htable, BootstrapEntry.ofRows?_flatMap_row hcounts]

/-! ## Attributes of a file -/

namespace ClassFile

/-- The entries are those that the last attribute with the name `BootstrapMethods` encodes.
    There are none if no attribute has this name. -/
structure Bootstraps (file : ClassFile) (entries : List BootstrapEntry) : Prop where
  last : ∀ a, (file.bootstrapAttributes file.attributes).getLast? = some a →
    BootstrapTable.Encodable entries ∧ a.info = encodeBootstrapTable entries
  absent : file.bootstrapAttributes file.attributes = [] → entries = []

theorem yields_readBootstrapEntry :
    Yields (fun e => e.arguments.length ≤ 65535) readBootstrapEntry := by
  refine yields_bind (fun method => ?_)
  refine yields_bind_of (yields_counted (yields_any Reader.u16)) (fun arguments harguments => ?_)
  exact yields_pure harguments.1

theorem canonical_bootstrapEntry : Canonical readBootstrapEntry BootstrapEntry.encode := by
  intro bytes e rest h
  obtain ⟨method, rest₁, hmethod, h⟩ := reader_bind_eq_ok h
  obtain ⟨arguments, rest₂, harguments, h⟩ := reader_bind_eq_ok h
  cases h
  rw [canonical_u16 hmethod, canonical_counted canonical_u16 harguments, BootstrapEntry.encode,
    List.append_assoc]

/-- The bytes of a table that has been read are its encoding. -/
theorem parseBootstrapTable_eq_ok {info : Text.Bytes} (h : parseBootstrapTable info = .ok entries) :
    BootstrapTable.Encodable entries ∧ info = encodeBootstrapTable entries := by
  unfold parseBootstrapTable at h
  split at h
  · rename_i found hread
    cases h
    obtain ⟨hcount, harguments⟩ := yields_counted yields_readBootstrapEntry _ _ _ hread
    have hinfo := canonical_counted canonical_bootstrapEntry hread
    rw [List.append_nil] at hinfo
    exact ⟨⟨hcount, harguments⟩, hinfo⟩
  · cases h

/-- The table that is found is in the last attribute for it. -/
theorem findBootstrapTable_eq_ok {attributes : List Attribute} {found : List BootstrapEntry}
    (h : file.findBootstrapTable found attributes = .ok entries) :
    (∀ a, (file.bootstrapAttributes attributes).getLast? = some a →
      BootstrapTable.Encodable entries ∧ a.info = encodeBootstrapTable entries) ∧
    (file.bootstrapAttributes attributes = [] → entries = found) := by
  induction attributes generalizing found with
  | nil => exact ⟨fun a ha => (by cases ha), fun _ => (Except.ok.inj h).symm⟩
  | cons a rest ih =>
    obtain ⟨name, hname, h⟩ := except_bind_eq_ok h
    by_cases hn : name = bootstrapAttribute
    · have hfilter : file.bootstrapAttributes (a :: rest) = a :: file.bootstrapAttributes rest := by
        simp [bootstrapAttributes, hname, hn, Except.toOption]
      rw [if_pos hn] at h
      obtain ⟨table, htable, h⟩ := except_bind_eq_ok h
      obtain ⟨hlast, habsent⟩ := ih h
      rw [hfilter, List.getLast?_cons]
      refine ⟨fun b hb => ?_, fun hempty => by cases hempty⟩
      cases hrest : (file.bootstrapAttributes rest).getLast? with
      | some b' =>
        rw [hrest] at hb
        cases hb
        exact hlast b' hrest
      | none =>
        -- No later attribute replaces the table that this one holds.
        rw [hrest] at hb
        cases hb
        rw [habsent (List.getLast?_eq_none_iff.mp hrest)]
        exact parseBootstrapTable_eq_ok htable
    · have hfilter : file.bootstrapAttributes (a :: rest) = file.bootstrapAttributes rest := by
        simp [bootstrapAttributes, hname, hn, Except.toOption]
      rw [if_neg hn] at h
      rw [hfilter]
      exact ih h

/-- An accepted file has the bootstrap methods that it encodes. -/
theorem bootstraps_of_parse {bytes : Text.Bytes} (h : parse bytes = .ok file) :
    file.Bootstraps file.bootstrapMethods := by
  obtain ⟨⟨read, rest⟩, hread, h⟩ := except_bind_eq_ok h
  dsimp only at h
  split at h
  · obtain ⟨_, hthrow, _⟩ := except_bind_eq_ok h
    cases hthrow
  obtain ⟨table, htable, h⟩ := except_bind_eq_ok h
  cases h
  obtain ⟨hlast, habsent⟩ := findBootstrapTable_eq_ok htable
  exact ⟨hlast, habsent⟩

/-- The bytes of the attribute leave no choice. -/
theorem Bootstraps.unique {others : List BootstrapEntry} (h : file.Bootstraps entries)
    (h' : file.Bootstraps others) : entries = others := by
  cases hlast : (file.bootstrapAttributes file.attributes).getLast? with
  | some a =>
    obtain ⟨hencodable, hinfo⟩ := h.last a hlast
    obtain ⟨hencodable', hinfo'⟩ := h'.last a hlast
    have hparse := parseBootstrapTable_encode hencodable
    rw [← hinfo, hinfo', parseBootstrapTable_encode hencodable', Except.ok.injEq] at hparse
    exact hparse.symm
  | none =>
    have hempty := List.getLast?_eq_none_iff.mp hlast
    rw [h.absent hempty, h'.absent hempty]

theorem Bootstraps.counts (h : file.Bootstraps entries) :
    ∀ e ∈ entries, e.arguments.length ≤ 65535 := by
  cases hlast : (file.bootstrapAttributes file.attributes).getLast? with
  | some a => exact (h.last a hlast).1.arguments
  | none =>
    rw [h.absent (List.getLast?_eq_none_iff.mp hlast)]
    exact fun e he => absurd he List.not_mem_nil

end ClassFile

/-! ## New classes -/

/-- A class that is derived comes from a file that is accepted. -/
theorem deriveClass_eq_ok {bytes : Text.Bytes} (h : deriveClass env bytes m = (.ok c, m')) :
    ∃ file d, ClassFile.parse bytes = .ok file ∧ ClassDeclaration.ofFile file = .ok d ∧
      defineClass env d m = (.ok c, m') := by
  unfold deriveClass deriveClassWith at h
  cases hdeclares : ClassFile.parse bytes >>= ClassDeclaration.ofFile with
  | error fault =>
    rw [hdeclares] at h
    cases h
  | ok d =>
    rw [hdeclares] at h
    obtain ⟨file, hparse, hfile⟩ := except_bind_eq_ok hdeclares
    exact ⟨file, d, hparse, hfile, h⟩

theorem bootstrapTable_of_newOn (hnew : d.NewOn env m) (h : defineClass env d m = (.ok c, m')) :
    c.bootstrapTable = d.bootstrap.flatMap BootstrapEntry.row := by
  obtain ⟨layout, id, classObject, rfl, rfl, _⟩ := layout_of_newOn hnew h
  rfl

/-- Whatever rows a table is made of, the entry at a place is found there if no entry has more
    than 65535 arguments, and nothing is found behind the last one. The table of a new class
    is made of the entries of its declaration. And a new class that comes from a file has, at
    each place, the entry that the last attribute for bootstrap methods encodes there. -/
theorem bootstrapMethods_found (env : Environment) (m : Machine) :
    (∀ (c : Class) (entries : List BootstrapEntry),
      c.bootstrapTable = entries.flatMap BootstrapEntry.row →
      (∀ e ∈ entries, e.arguments.length ≤ 65535) →
      ∀ k : UInt16, c.bootstrapMethod? k = entries[k.toNat]?) ∧
    (∀ d c m', d.NewOn env m → defineClass env d m = (.ok c, m') →
      c.bootstrapTable = d.bootstrap.flatMap BootstrapEntry.row) ∧
    ∀ bytes c m', deriveClass env bytes m = (.ok c, m') →
      ∃ file d, ClassFile.parse bytes = .ok file ∧ ClassDeclaration.ofFile file = .ok d ∧
        (d.NewOn env m → ∃ entries, file.Bootstraps entries ∧
          ∀ k : UInt16, c.bootstrapMethod? k = entries[k.toNat]?) := by
  refine ⟨?_, ?_, ?_⟩
  · intro c entries htable hcounts
    exact Class.bootstrapMethod?_of_rows htable hcounts
  · intro d c m' hnew hrun
    exact bootstrapTable_of_newOn hnew hrun
  · intro bytes c m' hrun
    obtain ⟨file, d, hparse, hfile, hdefine⟩ := deriveClass_eq_ok hrun
    have hbootstraps := ClassFile.bootstraps_of_parse hparse
    refine ⟨file, d, hparse, hfile, fun hnew => ⟨_, hbootstraps, ?_⟩⟩
    have htable := bootstrapTable_of_newOn hnew hdefine
    rw [(ClassDeclaration.ofFile_parts hfile).2] at htable
    exact Class.bootstrapMethod?_of_rows htable hbootstraps.counts

namespace Sample

/-- A class at the root, with two attributes for bootstrap methods. -/
def easelFile : ClassFile :=
  { minor := 0
    major := 61
    pool := #[.utf8 "Easel", .classRef 1, .utf8 "BootstrapMethods"]
    access := 0x21
    thisClass := 2
    superClass := 0
    interfaces := []
    fields := []
    methods := []
    attributes := [⟨3, encodeBootstrapTable [⟨9, []⟩]⟩,
      ⟨3, encodeBootstrapTable [⟨4, [2, 6]⟩, ⟨5, []⟩]⟩]
    bootstrapMethods := [⟨4, [2, 6]⟩, ⟨5, []⟩] }

theorem easelFile_parses : Succeeds (ClassFile.parse easelFile.encode) (· = easelFile) := by
  decide +kernel

theorem easelFile_declares : Succeeds (ClassDeclaration.ofFile easelFile) (fun d =>
    d.superclass = none ∧ d.interfaces = []) := by
  decide +kernel

theorem easelFile_derives :
    Succeeds (deriveClass Sample.env easelFile.encode (Machine.bare {})).1 (fun _ => True) := by
  decide +kernel

end Sample

theorem easel_bootstrapMethods_found :
    ∃ (m' : Machine) (d : ClassDeclaration) (c : Class),
      deriveClass Sample.env Sample.easelFile.encode (Machine.bare {}) = (.ok c, m') ∧
      ClassDeclaration.ofFile Sample.easelFile = .ok d ∧ d.NewOn Sample.env (Machine.bare {}) ∧
      Sample.easelFile.Bootstraps [⟨4, [2, 6]⟩, ⟨5, []⟩] ∧
      c.bootstrapMethod? 0 = some ⟨4, [2, 6]⟩ ∧ c.bootstrapMethod? 1 = some ⟨5, []⟩ ∧
      c.bootstrapMethod? 2 = none := by
  obtain ⟨c, hderived, _⟩ := Sample.easelFile_derives
  have hparse := Sample.easelFile_parses.eq_ok
  obtain ⟨d, hfile, hsuper, hinterfaces⟩ := Sample.easelFile_declares
  have hrun : deriveClass Sample.env Sample.easelFile.encode (Machine.bare {}) = (.ok c, _) :=
    Prod.ext hderived rfl
  -- The file has neither superclass nor interfaces, so that nothing is loaded before it is defined.
  have hnew : d.NewOn Sample.env (Machine.bare {}) := by
    unfold ClassDeclaration.NewOn loadSupertypes loadSuperclass
    rw [hsuper, hinterfaces]
    rfl
  obtain ⟨file, d', hparse', hfile', hfound⟩ :=
    (bootstrapMethods_found Sample.env (Machine.bare {})).2.2 _ c _ hrun
  rw [hparse, Except.ok.injEq] at hparse'
  subst hparse'
  rw [hfile, Except.ok.injEq] at hfile'
  subst hfile'
  obtain ⟨entries, hentries, hlookup⟩ := hfound hnew
  have hbootstraps : Sample.easelFile.Bootstraps [⟨4, [2, 6]⟩, ⟨5, []⟩] :=
    ClassFile.bootstraps_of_parse hparse
  rw [hentries.unique hbootstraps] at hlookup
  exact ⟨_, d, c, hrun, hfile, hnew, hbootstraps, hlookup 0, hlookup 1, hlookup 2⟩

end Linkage
