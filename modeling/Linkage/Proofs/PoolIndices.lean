import Linkage.Proofs.Accessibility
import Linkage.Proofs.ConstantOrigins
import Linkage.Proofs.LoadedNames
import Linkage.Proofs.RoundTrip

/-! # Indices of constants

    The holes behind the wide constants of a class file are dropped when the file is
    translated, and put back when the pool of the class is made. The two go together, so
    each constant has the same index in the file and in the class.

    * `ClassFile.indexed_of_parse`: in a pool that has been read, holes stand where they
      should.
    * `Constant.Translates`: what a constant becomes, its own indices followed.
    * `get?_ofConstants`: the slots of the pool of a class against those of the file.
    * `Class.Boxes`: the objects of numbers. -/

namespace Linkage

open Link

/-! ## Pools that have been read -/

namespace ClassFile

open Text (Bytes)

variable {α β : Type} {P : α → Prop} {bytes rest : Bytes}

/-- What the reader reads has the property. -/
def Yields (P : α → Prop) (r : Reader α) : Prop :=
  ∀ bytes a rest, r bytes = .ok (a, rest) → P a

theorem yields_pure {a : α} (h : P a) : Yields P (pure a : Reader α) := by
  intro bytes b rest hread
  cases hread
  exact h

theorem yields_bind_of {Q : β → Prop} {r : Reader β} {f : β → Reader α} (hr : Yields Q r)
    (hf : ∀ b, Q b → Yields P (f b)) : Yields P (r >>= f) := by
  intro bytes a rest hread
  obtain ⟨b, mid, hb, ha⟩ := reader_bind_eq_ok hread
  exact hf b (hr _ _ _ hb) _ _ _ ha

theorem yields_bind {r : Reader β} {f : β → Reader α} (hf : ∀ b, Yields P (f b)) :
    Yields P (r >>= f) :=
  yields_bind_of (Q := fun _ => True) (fun _ _ _ _ => trivial) (fun b _ => hf b)

theorem yields_map {r : Reader β} {f : β → α} (h : ∀ b, P (f b)) : Yields P (f <$> r) := by
  rw [map_eq_pure_bind]
  exact yields_bind (fun b => yields_pure (h b))

theorem yields_readPair {r : Reader β} {make : β → β → α} (h : ∀ a b, P (make a b)) :
    Yields P (readPair r make) :=
  yields_bind (fun a => yields_bind (fun b => yields_pure (h a b)))

theorem yields_any (r : Reader α) : Yields (fun _ => True) r := fun _ _ _ _ => trivial

theorem yields_manyAfter {r : Reader α} (hr : Yields P r) (n : Nat) {done : List α}
    (hdone : ∀ a ∈ done, P a) :
    Yields (fun l => l.length = done.length + n ∧ ∀ a ∈ l, P a) (Reader.manyAfter r n done) := by
  induction n generalizing done with
  | zero => exact yields_pure ⟨List.length_reverse, fun a ha => hdone a (List.mem_reverse.mp ha)⟩
  | succ n ih =>
    refine yields_bind_of hr (fun a ha => ?_)
    have hlonger := ih (List.forall_mem_cons.mpr ⟨ha, hdone⟩)
    rwa [List.length_cons, Nat.succ_add_eq_add_succ] at hlonger

/-- A list whose length is stored in 16 bits. -/
theorem yields_counted {r : Reader α} (hr : Yields P r) :
    Yields (fun l => l.length ≤ 65535 ∧ ∀ a ∈ l, P a) (Reader.counted r) := by
  refine yields_bind (fun n => ?_)
  intro bytes l rest h
  obtain ⟨hlength, hall⟩ := yields_manyAfter hr n.toNat (fun _ h => absurd h List.not_mem_nil)
    bytes l rest h
  have hn := n.toNat_lt
  exact ⟨by rw [hlength, List.length_nil]; omega, hall⟩

/-- Holes are not stored in the file. -/
theorem yields_readConstant : Yields (· ≠ .hole) readConstant := by
  refine yields_bind (fun code => ?_)
  -- Each tag has its own kind of constant, and the hole has none.
  cases ConstantTag.ofCode? code with
  | none =>
    intro bytes c rest hread
    cases hread
  | some tag =>
    cases tag with
    | methodHandle =>
      exact yields_bind (fun kind => yields_bind (fun reference => yields_pure (by simp)))
    | long => exact yields_readPair (by simp)
    | double => exact yields_readPair (by simp)
    | fieldref => exact yields_readPair (by simp)
    | methodref => exact yields_readPair (by simp)
    | interfaceMethodref => exact yields_readPair (by simp)
    | nameAndType => exact yields_readPair (by simp)
    | dynamic => exact yields_readPair (by simp)
    | invokeDynamic => exact yields_readPair (by simp)
    | _ => exact yields_map (by simp)

/-- The hole that a constant is followed by. -/
def holeAfter (wide : Bool) : List Constant :=
  if wide then [.hole] else []

theorem shape_cons {c : Constant} {pool : List Constant} (hhole : c ≠ .hole)
    (shape : PoolShape pool) : PoolShape (c :: (holeAfter c.isWide ++ pool)) := by
  cases hwide : c.isWide with
  | true => exact .wide hwide shape
  | false => exact .narrow hwide hhole shape

/-- The slots that are read come after those that are there, the hole that is owed first.
    At most one slot is read beyond those asked for. -/
theorem shape_of_readSlots {n : Nat} {owed : Bool} {done pool : List Constant}
    (h : readSlots n owed done bytes = .ok (pool, rest)) :
    ∃ more, pool = done.reverse ++ (holeAfter owed ++ more) ∧ PoolShape more ∧
      (holeAfter owed ++ more).length ≤ n + 1 := by
  induction n generalizing owed done bytes with
  | zero =>
    cases h
    refine ⟨[], ?_, .nil, ?_⟩
    · cases owed <;> simp [holeAfter]
    · cases owed <;> simp [holeAfter]
  | succ n ih =>
    cases owed with
    -- The hole is the first of the slots that are still to be read.
    | true =>
      obtain ⟨more, rfl, shape, hlength⟩ := ih h
      exact ⟨more, by simp [holeAfter], shape, by simpa [holeAfter] using hlength⟩
    -- The constant is followed by its hole, if it is a wide one.
    | false =>
      obtain ⟨c, mid, hconstant, hslots⟩ := reader_bind_eq_ok h
      obtain ⟨more, rfl, shape, hlength⟩ := ih hslots
      have hhole := yields_readConstant _ _ _ hconstant
      refine ⟨c :: (holeAfter c.isWide ++ more), by simp [holeAfter], shape_cons hhole shape, ?_⟩
      simpa [holeAfter] using hlength

/-- Holes are in place, and 16 bits are enough for the indices. -/
def Indexed (pool : List Constant) : Prop :=
  PoolShape pool ∧ pool.length ≤ 65535

theorem yields_readPool : Yields Indexed readPool := by
  refine yields_bind (fun count => ?_)
  intro bytes pool rest hread
  obtain ⟨more, rfl, shape, hlength⟩ := shape_of_readSlots hread
  refine ⟨shape, ?_⟩
  have hcount := count.toNat_lt
  simp only [holeAfter, Bool.false_eq_true, if_false, List.nil_append] at hlength ⊢
  omega

theorem yields_readFile : Yields (fun file => Indexed file.pool.toList) readFile := by
  refine yields_bind (fun found => ?_)
  split
  · intro bytes file rest hread
    obtain ⟨_, _, hthrow, _⟩ := reader_bind_eq_ok hread
    cases hthrow
  refine yields_bind (fun minor => yields_bind (fun major => ?_))
  refine yields_bind_of yields_readPool (fun pool hpool => ?_)
  -- What follows the pool does not change it.
  refine yields_bind (fun access => yields_bind (fun thisClass => ?_))
  refine yields_bind (fun superClass => yields_bind (fun interfaces => ?_))
  refine yields_bind (fun fields => yields_bind (fun methods => ?_))
  exact yields_bind (fun attributes => yields_pure hpool)

/-- A file that has been parsed has the holes of its pool in place. -/
theorem indexed_of_parse {file : ClassFile} (h : parse bytes = .ok file) :
    Indexed file.pool.toList := by
  obtain ⟨table, hread⟩ := readFile_of_parse h
  have hindexed := yields_readFile _ _ _ hread
  exact hindexed

end ClassFile

/-! ## Translation -/

/-- The constant at the index is a name with a descriptor. -/
def ClassFile.Names (file : ClassFile) (index : UInt16) (name descriptor : String) : Prop :=
  ∃ i j, file.entry index = .ok (.nameAndType i j) ∧ file.entry i = .ok (.utf8 name) ∧
    file.entry j = .ok (.utf8 descriptor)

/-- What a constant of a file becomes. Its kind stays, except that names of modules and
    packages are dropped; numbers keep their bits, and the indices inside the constant are
    followed. -/
inductive Constant.Translates (file : ClassFile) : Constant → PoolEntry → Prop where
  | utf8 (text : String) : Translates file (.utf8 text) (.utf8 text)
  | integer (bits : UInt32) : Translates file (.integer bits) (.integer bits.toInt32)
  | float (bits : UInt32) : Translates file (.float bits) (.float bits)
  | long (high low : UInt32) :
      Translates file (.long high low) (.long { first := low, second := high })
  | double (high low : UInt32) :
      Translates file (.double high low) (.double { first := low, second := high })
  | classRef {i : UInt16} {name : String} (named : file.entry i = .ok (.utf8 name)) :
      Translates file (.classRef i) (.classRef name)
  | stringRef {i : UInt16} {value : String} (text : file.entry i = .ok (.utf8 value)) :
      Translates file (.stringRef i) (.stringRef value)
  | methodType {i : UInt16} {descriptor : String}
      (described : file.entry i = .ok (.utf8 descriptor)) :
      Translates file (.methodType i) (.methodType descriptor)
  | methodHandle {number : UInt8} {kind : ReferenceKind} (reference : UInt16)
      (numbered : kind.number = number.toNat) :
      Translates file (.methodHandle number reference) (.methodHandle kind reference)
  | fieldref {owner i : UInt16} {name descriptor : String} (named : file.Names i name descriptor) :
      Translates file (.fieldref owner i) (.fieldref { owner, name, descriptor })
  | methodref {owner i : UInt16} {name descriptor : String}
      (named : file.Names i name descriptor) :
      Translates file (.methodref owner i) (.methodref { owner, name, descriptor })
  | interfaceMethodref {owner i : UInt16} {name descriptor : String}
      (named : file.Names i name descriptor) :
      Translates file (.interfaceMethodref owner i)
        (.interfaceMethodref { owner, name, descriptor })
  | nameAndType {i j : UInt16} {name descriptor : String}
      (named : file.entry i = .ok (.utf8 name))
      (described : file.entry j = .ok (.utf8 descriptor)) :
      Translates file (.nameAndType i j) (.nameAndType name descriptor)
  | dynamic {bootstrap i : UInt16} {name descriptor : String}
      (named : file.Names i name descriptor) :
      Translates file (.dynamic bootstrap i) (.dynamic bootstrap name descriptor)
  | invokeDynamic {bootstrap i : UInt16} {name descriptor : String}
      (named : file.Names i name descriptor) :
      Translates file (.invokeDynamic bootstrap i) (.invokeDynamic bootstrap name descriptor)
  | moduleName (i : UInt16) : Translates file (.moduleName i) (.utf8 "")
  | packageName (i : UInt16) : Translates file (.packageName i) (.utf8 "")

section Following

variable {file : ClassFile} {index : UInt16}

theorem ClassFile.entry_of_utf8 {text : String} (h : file.utf8 index = .ok text) :
    file.entry index = .ok (.utf8 text) := by
  obtain ⟨c, hc, htext⟩ := except_bind_eq_ok h
  cases c <;> cases htext
  exact hc

theorem ClassFile.names_of_nameAndType {name descriptor : String}
    (h : file.nameAndType index = .ok (name, descriptor)) : file.Names index name descriptor := by
  obtain ⟨c, hc, hparts⟩ := except_bind_eq_ok h
  cases c with
  | nameAndType i j =>
    obtain ⟨name', hname, hrest⟩ := except_bind_eq_ok hparts
    obtain ⟨descriptor', hdescriptor, hpair⟩ := except_bind_eq_ok hrest
    cases hpair
    exact ⟨i, j, hc, entry_of_utf8 hname, entry_of_utf8 hdescriptor⟩
  | _ => cases hparts

/-- Making a value from a text that an index leads to. -/
theorem ClassFile.eq_of_map_utf8 {make : String → PoolEntry} {e : PoolEntry}
    (h : (make <$> file.utf8 index) = .ok e) :
    ∃ text, file.entry index = .ok (.utf8 text) ∧ make text = e := by
  cases htext : file.utf8 index with
  | error fault => rw [htext] at h; cases h
  | ok text =>
    rw [htext] at h
    cases h
    exact ⟨text, entry_of_utf8 htext, rfl⟩

theorem ClassFile.eq_of_map_symbolicRef {make : SymbolicRef → PoolEntry} {owner : UInt16}
    {e : PoolEntry} (h : (make <$> ClassDeclaration.symbolicRef file owner index) = .ok e) :
    ∃ name descriptor, file.Names index name descriptor ∧ make { owner, name, descriptor } = e := by
  cases href : ClassDeclaration.symbolicRef file owner index with
  | error fault => rw [href] at h; cases h
  | ok r =>
    rw [href] at h
    cases h
    obtain ⟨⟨name, descriptor⟩, hnames, hr⟩ := except_bind_eq_ok href
    cases hr
    exact ⟨name, descriptor, names_of_nameAndType hnames, rfl⟩

/-- The entry of a class is the translation of the constant. -/
theorem translates_of_poolEntry {c : Constant} {e : PoolEntry}
    (hc : file.entry index = .ok c) (hhole : c ≠ .hole)
    (h : ClassDeclaration.poolEntry file index c = .ok e) : c.Translates file e := by
  cases c with
  | utf8 text => cases h; exact .utf8 text
  | integer bits => cases h; exact .integer bits
  | float bits => cases h; exact .float bits
  | long high low => cases h; exact .long high low
  | double high low => cases h; exact .double high low
  | classRef i =>
    obtain ⟨name, hname, rfl⟩ := ClassFile.eq_of_map_utf8 h
    exact .classRef hname
  | stringRef i =>
    obtain ⟨value, hvalue, rfl⟩ := ClassFile.eq_of_map_utf8 h
    exact .stringRef hvalue
  | methodType i =>
    obtain ⟨descriptor, hdescriptor, rfl⟩ := ClassFile.eq_of_map_utf8 h
    exact .methodType hdescriptor
  | methodHandle number reference =>
    simp only [ClassDeclaration.poolEntry] at h
    cases hkind : ReferenceKind.ofNumber? number.toNat with
    | none => rw [hkind] at h; cases h
    | some kind =>
      rw [hkind] at h
      cases h
      refine .methodHandle reference ?_
      simpa using List.find?_some hkind
  | fieldref owner i =>
    obtain ⟨name, descriptor, hnames, rfl⟩ := ClassFile.eq_of_map_symbolicRef h
    exact .fieldref hnames
  | methodref owner i =>
    obtain ⟨name, descriptor, hnames, rfl⟩ := ClassFile.eq_of_map_symbolicRef h
    exact .methodref hnames
  | interfaceMethodref owner i =>
    obtain ⟨name, descriptor, hnames, rfl⟩ := ClassFile.eq_of_map_symbolicRef h
    exact .interfaceMethodref hnames
  | nameAndType i j =>
    -- This constant is looked up once more, by its own index.
    obtain ⟨⟨name, descriptor⟩, hnames, he⟩ := except_bind_eq_ok h
    cases he
    obtain ⟨i', j', hself, hname, hdescriptor⟩ := ClassFile.names_of_nameAndType hnames
    rw [hc] at hself
    cases hself
    exact .nameAndType hname hdescriptor
  | dynamic bootstrap i =>
    obtain ⟨⟨name, descriptor⟩, hnames, he⟩ := except_bind_eq_ok h
    cases he
    exact .dynamic (ClassFile.names_of_nameAndType hnames)
  | invokeDynamic bootstrap i =>
    obtain ⟨⟨name, descriptor⟩, hnames, he⟩ := except_bind_eq_ok h
    cases he
    exact .invokeDynamic (ClassFile.names_of_nameAndType hnames)
  | moduleName i => cases h; exact .moduleName i
  | packageName i => cases h; exact .packageName i
  | hole => exact absurd rfl hhole

end Following

/-! ## Slots -/

/-- What fills the slot of a class whose constant has the given index: a hole stays a hole. -/
def Constant.Fills (file : ClassFile) (c : Constant) (e : PoolEntry) : Prop :=
  c = .hole ∧ e = .hole ∨ c ≠ .hole ∧ c.Translates file e

/-- A constant takes two slots in the class exactly if it does in the file. -/
theorem Constant.Translates.slotsOf {file : ClassFile} {c : Constant} {e : PoolEntry}
    (h : c.Translates file e) :
    ConstantPool.slotsOf e = if c.isWide then [e, .hole] else [e] := by
  cases h <;> rfl

theorem Constant.Translates.ne_hole {file : ClassFile} {c : Constant} {e : PoolEntry}
    (h : c.Translates file e) : e ≠ .hole := by
  cases h <;> simp

section Slots

variable {file : ClassFile} {entries : List PoolEntry}

/-- A constant that is no hole gives the entry in front, and the others go on behind it. -/
theorem translates_front {c : Constant} {i : Nat} {others : List (Constant × Nat)}
    (hc : file.entry (UInt16.ofNat i) = .ok c) (hhole : c ≠ .hole)
    (h : (((c, i) :: others).filter (fun (c, _) => c != .hole)).mapM
      (fun (c, index) => ClassDeclaration.poolEntry file (UInt16.ofNat index) c) = .ok entries) :
    ∃ e more, entries = e :: more ∧ c.Translates file e ∧
      (others.filter (fun (c, _) => c != .hole)).mapM
        (fun (c, index) => ClassDeclaration.poolEntry file (UInt16.ofNat index) c) = .ok more := by
  rw [List.filter_cons_of_pos (by simpa using hhole), List.mapM_cons] at h
  obtain ⟨e, he, h⟩ := except_bind_eq_ok h
  obtain ⟨more, hmore, h⟩ := except_bind_eq_ok h
  cases h
  exact ⟨e, more, rfl, translates_of_poolEntry hc hhole he, hmore⟩

/-- The holes that were left out are put back where they were. The induction is on the
    shape of the pool, as the two steps treat a wide constant and its hole together. -/
theorem fills_slots {pool : List Constant} (shape : PoolShape pool) {start : Nat}
    (hfile : ∀ c i, (c, i) ∈ pool.zipIdx start → file.entry (UInt16.ofNat i) = .ok c)
    (h : ((pool.zipIdx start).filter (fun (c, _) => c != .hole)).mapM
      (fun (c, index) => ClassDeclaration.poolEntry file (UInt16.ofNat index) c) = .ok entries) :
    List.Forall₂ (Constant.Fills file) pool (entries.flatMap ConstantPool.slotsOf) := by
  induction shape generalizing start entries with
  | nil =>
    cases h
    exact .nil
  | @narrow c rest hwide hhole _ ih =>
    rw [List.zipIdx_cons] at h hfile
    obtain ⟨e, more, rfl, htranslates, hmore⟩ :=
      translates_front (hfile c start List.mem_cons_self) hhole h
    rw [List.flatMap_cons, htranslates.slotsOf, hwide]
    exact .cons (.inr ⟨hhole, htranslates⟩)
      (ih (fun c' i hmem => hfile c' i (List.mem_cons_of_mem _ hmem)) hmore)
  | @wide c rest hwide _ ih =>
    have hhole : c ≠ .hole := by
      rintro rfl
      cases hwide
    rw [List.zipIdx_cons, List.zipIdx_cons] at h hfile
    obtain ⟨e, more, rfl, htranslates, hmore⟩ :=
      translates_front (hfile c start List.mem_cons_self) hhole h
    rw [List.filter_cons_of_neg (by simp)] at hmore
    rw [List.flatMap_cons, htranslates.slotsOf, hwide]
    refine .cons (.inr ⟨hhole, htranslates⟩) (.cons (.inl ⟨rfl, rfl⟩) ?_)
    exact ih (fun c' i hmem => hfile c' i
      (List.mem_cons_of_mem _ (List.mem_cons_of_mem _ hmem))) hmore

theorem ClassFile.entry_eq_ok_iff {index : UInt16} {c : Constant} :
    file.entry index = .ok c ↔ ∃ i, index.toNat = i + 1 ∧ file.pool.toList[i]? = some c := by
  unfold entry
  cases index.toNat with
  | zero => simp
  | succ i =>
    simp only [Array.getElem?_toList, Nat.add_right_cancel_iff, exists_eq_left']
    cases file.pool[i]? <;> simp

/-- A constant of the file is found by its index. -/
theorem ClassFile.entry_of_mem_zipIdx (hsize : file.pool.toList.length ≤ 65535) {c : Constant}
    {i : Nat} (h : (c, i) ∈ file.pool.toList.zipIdx 1) :
    file.entry (UInt16.ofNat i) = .ok c := by
  obtain ⟨hfirst, hlast, hc⟩ := List.mem_zipIdx h
  have hnumber : (UInt16.ofNat i).toNat = i :=
    UInt16.toNat_ofNat_of_lt' (by unfold UInt16.size; omega)
  refine entry_eq_ok_iff.mpr ⟨i - 1, by omega, ?_⟩
  rw [hc]
  exact List.getElem?_eq_getElem _

variable (hindexed : ClassFile.Indexed file.pool.toList)
  (h : ClassDeclaration.poolEntries file = .ok entries)

include hindexed h

theorem fills_poolEntries :
    List.Forall₂ (Constant.Fills file) file.pool.toList (entries.flatMap ConstantPool.slotsOf) :=
  fills_slots hindexed.1 (fun _ _ hmem => ClassFile.entry_of_mem_zipIdx hindexed.2 hmem) h

theorem size_ofConstants : (ConstantPool.ofConstants entries).size = file.pool.size + 1 := by
  have hlength := (fills_poolEntries hindexed h).length_eq
  simp only [ConstantPool.ofConstants, ConstantPool.size, List.size_toArray, List.length_cons]
  rw [← hlength, Array.length_toList]

/-- Each slot of the class but the first is filled by the constant of the file with the same
    index. -/
theorem fills_get? {index : UInt16} {i : Nat} (hi : index.toNat = i + 1) {c : Constant}
    (hc : file.pool.toList[i]? = some c) :
    ∃ e, (ConstantPool.ofConstants entries).slots[index.toNat]? = some e ∧ c.Fills file e := by
  obtain ⟨hlength, hat⟩ := List.forall₂_iff_get.mp (fills_poolEntries hindexed h)
  obtain ⟨hlt, rfl⟩ := List.getElem?_eq_some_iff.mp hc
  have hlt' : i < (entries.flatMap ConstantPool.slotsOf).length := hlength ▸ hlt
  refine ⟨_, ?_, hat i hlt hlt'⟩
  rw [hi]
  show (PoolEntry.hole :: entries.flatMap ConstantPool.slotsOf).toArray[i + 1]? = _
  rw [List.getElem?_toArray, List.getElem?_cons_succ]
  exact List.getElem?_eq_getElem hlt'

/-- A constant that is not a hole has a translation at its index. -/
theorem exists_get?_of_entry {index : UInt16} {c : Constant} (hc : file.entry index = .ok c)
    (hhole : c ≠ .hole) :
    ∃ e, (ConstantPool.ofConstants entries).get? index = some e ∧ c.Translates file e := by
  obtain ⟨i, hi, hc⟩ := ClassFile.entry_eq_ok_iff.mp hc
  obtain ⟨e, he, hfills⟩ := fills_get? hindexed h hi hc
  rcases hfills with ⟨hc, -⟩ | ⟨-, htranslates⟩
  · exact absurd hc hhole
  · refine ⟨e, ?_, htranslates⟩
    have hne := htranslates.ne_hole
    unfold ConstantPool.get?
    rw [he]
    cases e <;> first | rfl | exact absurd rfl hne

/-- There is nothing else in the pool of the class. -/
theorem entry_of_get?_ofConstants {index : UInt16} {e : PoolEntry}
    (he : (ConstantPool.ofConstants entries).get? index = some e) :
    ∃ c, file.entry index = .ok c ∧ c ≠ .hole := by
  have hsize := ConstantPool.lt_size_of_get? he
  rw [size_ofConstants hindexed h] at hsize
  -- Index 0 is never a constant; the others are those of the file.
  cases hi : index.toNat with
  | zero =>
    unfold ConstantPool.get? at he
    rw [hi] at he
    cases he
  | succ i =>
    have hlt : i < file.pool.toList.length := by
      rw [Array.length_toList]
      omega
    have hc := List.getElem?_eq_getElem hlt
    refine ⟨_, ClassFile.entry_eq_ok_iff.mpr ⟨i, hi, hc⟩, ?_⟩
    -- A hole of the file is a hole of the class, where nothing is found.
    intro hhole
    obtain ⟨e', he', hfills⟩ := fills_get? hindexed h hi hc
    rcases hfills with ⟨-, rfl⟩ | ⟨hne, -⟩
    · unfold ConstantPool.get? at he
      rw [he'] at he
      cases he
    · exact hne hhole

end Slots

/-! ## New classes -/

section NewClasses

variable {env : Environment} {m m' : Machine} {d : ClassDeclaration} {c : Class}

/-- Load the supertypes of a declared class. -/
def loadSupertypes (env : Environment) (d : ClassDeclaration) :
    Link (Option Class × List Class) := do
  let superclass ← loadSuperclass (loadClass env) d
  let interfaces ← forEach (loadInterface (loadClass env) d) d.interfaces
  pure (superclass, interfaces)

/-- The name of the declared class is free, and it still is when the supertypes have been
    loaded. Otherwise the class that has the name is taken for the declared one. -/
def ClassDeclaration.NewOn (env : Environment) (d : ClassDeclaration) (m : Machine) : Prop :=
  (loadSupertypes env d m).2.classes.find? d.name = none

theorem changing_loadSupertypes {rule : Discipline} (env : Environment) (d : ClassDeclaration) :
    Changing rule (loadSupertypes env d) := by
  refine changing_bind (fun m => (goes_loadSuperclass (loads_loadClass env) d).1) (fun s => ?_)
  refine changing_bind (changing_forEach (fun name m => ?_) d.interfaces)
    (fun _ m => Changes.refl m)
  exact (goes_loadInterface (loads_loadClass env) d name).mono (fun _ _ _ h => h.1)

theorem ClassDeclaration.NewOn.find? (h : d.NewOn env m) : m.classes.find? d.name = none := by
  cases hfind : m.classes.find? d.name with
  | none => rfl
  | some c =>
    have hchanges : Changes (fun _ {_} _ => False) m (loadSupertypes env d m).2 :=
      changing_loadSupertypes env d m
    have hfound := hchanges.find?_classes hfind
    unfold NewOn at h
    rw [h] at hfound
    cases hfound

/-- A new class is laid out from its declaration, and gets the next place of the table. -/
theorem layout_of_newOn (hnew : d.NewOn env m) (h : defineClass env d m = (.ok c, m')) :
    ∃ (layout : Layout) (id : ClassId) (classObject : Handle), layout.declaration = d ∧
      c = layout.toClass id classObject ∧ m'.classes.get? id = some c := by
  unfold defineClass defineClassWith at h
  rw [bind_of_ok (findClass_run d.name m), hnew.find?] at h
  dsimp only at h
  obtain ⟨superclass, m₁, hsuper, hrest⟩ := bind_eq_ok_iff.mp h
  obtain ⟨interfaces, m₂, hinterfaces, hlast⟩ := bind_eq_ok_iff.mp hrest
  -- Loading the supertypes has not defined the class, so its name is still free.
  have hfree : m₂.classes.find? d.name = none := by
    have hload : loadSupertypes env d m = (.ok (superclass, interfaces), m₂) := by
      unfold loadSupertypes
      rw [bind_of_ok hsuper, bind_of_ok hinterfaces]
      rfl
    unfold ClassDeclaration.NewOn at hnew
    rw [hload] at hnew
    exact hnew
  rw [bind_of_ok (classes_run m₂)] at hlast
  obtain ⟨layout, m₃, hlayout, hadd⟩ := bind_eq_ok_iff.mp hlast
  obtain ⟨hlaid, rfl⟩ := ofExcept_eq_ok_iff.mp hlayout
  have hdeclared := (Layout.ofDeclaration_eq_ok hlaid).1
  rw [← hdeclared] at hfree
  obtain ⟨classObject, heap, _, rfl, rfl⟩ := addClass_eq_ok hfree hadd
  exact ⟨layout, m₃.classes.size, classObject, hdeclared, rfl, m₃.classes.get?_push_size _⟩

/-- The pool of a new class has the constants of the declaration. -/
theorem defineClass_of_newOn (hnew : d.NewOn env m) (h : defineClass env d m = (.ok c, m')) :
    m'.classes.get? c.id = some c ∧ c.pool = ConstantPool.ofConstants d.constants := by
  obtain ⟨layout, id, classObject, rfl, rfl, hplace⟩ := layout_of_newOn hnew h
  exact ⟨hplace, rfl⟩

end NewClasses

/-! ## Objects of numbers -/

section Boxes

variable {rule : Discipline} {env : Environment} {m : Machine} {c : Class} {index : UInt16}
  {entry : PoolEntry} {object : Object}

/-- Where there is room, an object is stored and read back. -/
theorem allocate_of_room (hw : m.heap.WellFormed) (hroom : m.heap.live < m.heap.config.capacity)
    (object : Object) :
    ∃ handle m', allocate object m = (.ok handle, m') ∧ m'.heap.read handle = .ok object := by
  rcases allocate_outcome hw object with ⟨hfull, _⟩ | ⟨handle, heap, hrun, _, _, _, hread⟩
  · exact absurd hroom (Nat.not_lt.mpr hfull)
  · exact ⟨handle, { m with heap }, hrun, hread⟩

theorem PoolEntry.isLazy_of_box? (h : entry.box? = some object) : entry.isLazy = false := by
  cases entry <;> first | rfl | cases h

theorem PoolEntry.computation?_of_not_lazy (h : entry.isLazy = false) (env : Environment)
    (bound : Nat) (c : Class) (index : UInt16) : entry.computation? env bound c index = none := by
  cases entry <;> first | rfl | cases h

/-- Nothing is ever remembered for a number. -/
theorem lookup_of_box? (h : m.Reachable rule) (hc : m.classes.get? c.id = some c)
    (hentry : c.pool.get? index = some entry) (hbox : entry.box? = some object) :
    m.memos.lookup ⟨c.id, index⟩ = none := by
  cases hmemo : m.memos.lookup ⟨c.id, index⟩ with
  | none => rfl
  | some value =>
    obtain ⟨_, _, _, _, _, _, hcompute, _⟩ :=
      (h.recorded.computed _ _ hmemo).of_class hc hentry
    rw [PoolEntry.computation?_of_not_lazy (PoolEntry.isLazy_of_box? hbox)] at hcompute
    cases hcompute

/-- Whenever a run reaches a machine with the class and with room for an object, the
    constant is boxed as a new object that looks like the given one. -/
def Class.Boxes (c : Class) (index : UInt16) (object : Object) : Prop :=
  ∀ (rule : Discipline) (m : Machine) (env : Environment) (resolve : Bool), m.Reachable rule →
    m.classes.get? c.id = some c → m.heap.live < m.heap.config.capacity →
    ∃ handle m', constantObject env c index resolve m = (.ok (some handle), m') ∧
      m'.heap.read handle = .ok object

theorem boxes_of_box? (hentry : c.pool.get? index = some entry) (hbox : entry.box? = some object) :
    c.Boxes index object := by
  intro rule m env resolve h hc hroom
  obtain ⟨handle, m', hallocate, hread⟩ := allocate_of_room h.sound.heap hroom object
  refine ⟨handle, m', ?_, hread⟩
  have hsize := ConstantPool.lt_size_of_get? hentry
  have hlazy := PoolEntry.isLazy_of_box? hbox
  have hindex : index ≠ 0 := by
    rintro rfl
    rw [h.pool_zero hc] at hentry
    cases hentry
  show constantObjectWith env _ c index resolve m = _
  unfold constantObjectWith
  rw [if_neg (by simp [hindex, hsize]), hentry]
  dsimp only
  -- A number is never remembered, so it is boxed whether the constant may be resolved or not.
  rw [bind_of_ok (memo?_run _ m), lookup_of_box? h hc hentry hbox]
  simp only [hlazy, Bool.false_eq_true, if_false, hbox]
  rw [map_run, hallocate]
  rfl

end Boxes

theorem WordPair.toNat_value (words : WordPair) :
    words.value.toNat = words.second.toNat * 2 ^ 32 + words.first.toNat := by
  have hfirst := words.first.toNat_lt
  have hsecond := words.second.toNat_lt
  unfold value
  rw [UInt64.toNat_ofNat_of_lt' (by unfold UInt64.size; omega)]
  omega

/-- The constants and the bootstrap methods of a declaration that comes from a file. -/
theorem ClassDeclaration.ofFile_parts {file : ClassFile} {d : ClassDeclaration}
    (h : ofFile file = .ok d) :
    poolEntries file = .ok d.constants ∧ d.bootstrap = file.bootstrapMethods := by
  obtain ⟨name, _, h⟩ := except_bind_eq_ok h
  dsimp only at h
  -- The rest is the same with and without a superclass.
  split at h <;>
  · obtain ⟨superclass, _, h⟩ := except_bind_eq_ok h
    obtain ⟨interfaces, _, h⟩ := except_bind_eq_ok h
    obtain ⟨fields, _, h⟩ := except_bind_eq_ok h
    obtain ⟨methods, _, h⟩ := except_bind_eq_ok h
    obtain ⟨constants, hconstants, h⟩ := except_bind_eq_ok h
    cases h
    exact ⟨hconstants, rfl⟩

theorem ClassDeclaration.ofFile_constants {file : ClassFile} {d : ClassDeclaration}
    (h : ofFile file = .ok d) : poolEntries file = .ok d.constants :=
  (ofFile_parts h).1

/-- The class that a class file declares keeps the indices of its constants. For every byte
    string that parses, and every new class that is derived from it: the pool of the class has
    one slot more than that of the file; a slot has a constant exactly if the file has one at
    this index that is not a hole behind a wide constant, and it is the translation of this
    constant. Numbers of 64 bits are boxed with the bits that stand in the file. -/
theorem pool_keeps_indices {env : Environment} {m m' : Machine} {bytes : Text.Bytes}
    {file : ClassFile} {d : ClassDeclaration} {c : Class}
    (hparse : ClassFile.parse bytes = .ok file) (hfile : ClassDeclaration.ofFile file = .ok d)
    (hnew : d.NewOn env m) (hrun : deriveClass env bytes m = (.ok c, m')) :
    m'.classes.get? c.id = some c ∧ c.pool.size = file.pool.size + 1 ∧
      PoolShape file.pool.toList ∧
      ∀ index : UInt16,
        ((∃ e, c.pool.get? index = some e) ↔ ∃ k, file.entry index = .ok k ∧ k ≠ .hole) ∧
        (∀ k e, file.entry index = .ok k → c.pool.get? index = some e → k.Translates file e) ∧
        (∀ high low, file.entry index = .ok (.long high low) → ∃ value,
          c.Boxes index (.long value) ∧
            value.toUInt64.toNat = high.toNat * 2 ^ 32 + low.toNat) ∧
        (∀ high low, file.entry index = .ok (.double high low) → ∃ bits,
          c.Boxes index (.double bits) ∧ bits.toNat = high.toNat * 2 ^ 32 + low.toNat) := by
  -- Deriving a class is defining what the file declares.
  have hindexed := ClassFile.indexed_of_parse hparse
  have hdefine : defineClass env d m = (.ok c, m') := by
    unfold deriveClass deriveClassWith at hrun
    have hdeclares : (ClassFile.parse bytes >>= ClassDeclaration.ofFile) = .ok d := by
      rw [hparse]
      exact hfile
    rw [hdeclares] at hrun
    exact hrun
  obtain ⟨hplace, hpool⟩ := defineClass_of_newOn hnew hdefine
  have hentries := ClassDeclaration.ofFile_constants hfile
  rw [hpool]
  refine ⟨hplace, size_ofConstants hindexed hentries, hindexed.1, fun index => ?_⟩
  refine ⟨⟨?_, ?_⟩, ?_, ?_, ?_⟩
  · rintro ⟨e, he⟩
    exact entry_of_get?_ofConstants hindexed hentries he
  · rintro ⟨k, hk, hhole⟩
    obtain ⟨e, he, _⟩ := exists_get?_of_entry hindexed hentries hk hhole
    exact ⟨e, he⟩
  · intro k e hk he
    obtain ⟨k', hk', hhole⟩ := entry_of_get?_ofConstants hindexed hentries he
    rw [hk, Except.ok.injEq] at hk'
    subst hk'
    obtain ⟨e', he', htranslates⟩ := exists_get?_of_entry hindexed hentries hk hhole
    rw [he, Option.some.injEq] at he'
    exact he' ▸ htranslates
  · -- The two halves of a wide number are put together with the high one first.
    intro high low hlong
    obtain ⟨e, he, htranslates⟩ := exists_get?_of_entry hindexed hentries hlong (by simp)
    cases htranslates
    refine ⟨_, boxes_of_box? (hpool ▸ he) rfl, ?_⟩
    rw [UInt64.toUInt64_toInt64]
    exact WordPair.toNat_value { first := low, second := high }
  · intro high low hdouble
    obtain ⟨e, he, htranslates⟩ := exists_get?_of_entry hindexed hentries hdouble (by simp)
    cases htranslates
    exact ⟨_, boxes_of_box? (hpool ▸ he) rfl,
      WordPair.toNat_value { first := low, second := high }⟩

/-- A class without interfaces whose superclass is there is new if its name is free. -/
theorem ClassDeclaration.newOn_of_find? {env : Environment} {m : Machine} {d : ClassDeclaration}
    {name : String} (hsuper : d.superclass = some name) (hinterfaces : d.interfaces = [])
    (hfound : (m.classes.find? name).isSome = true) (hfree : m.classes.find? d.name = none) :
    d.NewOn env m := by
  obtain ⟨s, hs⟩ := Option.isSome_iff_exists.mp hfound
  have hsame : (loadSupertypes env d m).2 = m := by
    unfold loadSupertypes loadSuperclass
    rw [hsuper, hinterfaces, bind_bind_run, bind_of_ok (loadClass_of_find? env hs)]
    cases s.isSealed <;> rfl
  unfold NewOn
  rw [hsame]
  exact hfree

namespace Sample

theorem vaultFile_parses : Succeeds (ClassFile.parse vaultFile.encode) (· = vaultFile) := by
  decide +kernel

theorem vaultFile_declares : Succeeds (ClassDeclaration.ofFile vaultFile) (fun d =>
    d.name = "bank/Vault" ∧ d.superclass = some ClassDeclaration.objectName ∧
      d.interfaces = []) := by
  decide +kernel

end Sample

theorem vault_pool_keeps_indices :
    ∃ (m m' : Machine) (d : ClassDeclaration) (c : Class) (value : Int64) (bits : UInt64),
      ClassFile.parse Sample.vaultFile.encode = .ok Sample.vaultFile ∧
      ClassDeclaration.ofFile Sample.vaultFile = .ok d ∧ d.NewOn Sample.env m ∧
      deriveClass Sample.env Sample.vaultFile.encode m = (.ok c, m') ∧ c.pool.size = 25 ∧
      (∃ e, c.pool.get? 23 = some e) ∧ (¬ ∃ e, c.pool.get? 24 = some e) ∧
      (∀ e, c.pool.get? 8 = some e → (Constant.fieldref 2 7).Translates Sample.vaultFile e) ∧
      c.Boxes 9 (.long value) ∧ value.toUInt64.toNat = 0x1FFFFFFFF ∧
      c.Boxes 23 (.double bits) ∧ bits.toNat = 0x4008000000000000 := by
  obtain ⟨m, _, ⟨⟨c, hderived, _⟩, hfree, hobject⟩, _⟩ := Sample.robbery_succeeds
  obtain ⟨d, hfile, hname, hsuper, hinterfaces⟩ := Sample.vaultFile_declares
  have hparse := Sample.vaultFile_parses.eq_ok
  have hnew : d.NewOn Sample.env m :=
    ClassDeclaration.newOn_of_find? hsuper hinterfaces hobject (by rw [hname]; simpa using hfree)
  have hrun : deriveClass Sample.env Sample.vaultFile.encode m =
      (.ok c, (deriveClass Sample.env Sample.vaultFile.encode m).2) := Prod.ext hderived rfl
  obtain ⟨_, hsize, _, hslots⟩ := pool_keeps_indices hparse hfile hnew hrun
  obtain ⟨value, hlong, hvalue⟩ := (hslots 9).2.2.1 1 0xFFFFFFFF rfl
  obtain ⟨bits, hdouble, hbits⟩ := (hslots 23).2.2.2 0x40080000 0 rfl
  refine ⟨m, _, d, c, value, bits, hparse, hfile, hnew, hrun, hsize,
    (hslots 23).1.mpr ⟨_, rfl, by decide⟩, ?_, fun e he => (hslots 8).2.1 _ e rfl he, hlong,
    hvalue, hdouble, hbits⟩
  -- The slot behind the last one of the double is a hole in the file.
  rintro ⟨e, he⟩
  obtain ⟨k, hk, hhole⟩ := (hslots 24).1.mp ⟨e, he⟩
  cases hk
  exact hhole rfl

end Linkage
