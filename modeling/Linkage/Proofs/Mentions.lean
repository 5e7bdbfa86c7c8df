import Linkage.Proofs.Startup

/-! # The names in class files

    A class file names the supertypes of its class by texts of its constant pool, and
    every text takes up bytes of the file. So the names that the files of a class path
    can lead to are a finite list (`ClassPath.texts`), no longer than the files
    themselves. -/

namespace Linkage

open Text (Bytes)

/-! ## Texts -/

/-- The text of a text constant. -/
def Constant.text? : Constant → Option String
  | .utf8 text => some text
  | _ => none

/-- The texts among some constants. -/
def Constant.texts (constants : List Constant) : List String :=
  constants.filterMap Constant.text?

/-- The texts of a class file, none if it is malformed. -/
def fileTexts (bytes : Bytes) : List String :=
  match ClassFile.parse bytes with
  | .ok file => Constant.texts file.pool.toList
  | .error _ => []

/-- The texts of all files. -/
def ClassPath.texts (p : ClassPath) : List String :=
  p.directories.flatMap (fun d => d.flatMap (fun file => fileTexts file.2))

/-- The class that a file declares. -/
def declarationOf (bytes : Bytes) : Except FormatError ClassDeclaration :=
  ClassFile.parse bytes >>= ClassDeclaration.ofFile

/-! ## Readers take bytes -/

theorem except_bind_eq_ok {ε α β : Type} {x : Except ε α} {f : α → Except ε β} {b : β}
    (h : (x >>= f) = .ok b) : ∃ a, x = .ok a ∧ f a = .ok b := by
  cases x with
  | error e => cases h
  | ok a => exact ⟨a, rfl, h⟩

namespace ClassFile

variable {α β : Type}

theorem reader_bind_eq_ok {r : Reader α} {f : α → Reader β} {bytes rest : Bytes} {b : β}
    (h : (r >>= f) bytes = .ok (b, rest)) :
    ∃ a mid, r bytes = .ok (a, mid) ∧ f a mid = .ok (b, rest) := by
  obtain ⟨⟨a, mid⟩, hr, hf⟩ := except_bind_eq_ok h
  exact ⟨a, mid, hr, hf⟩

/-- The reader leaves at least `n` bytes fewer than it gets. -/
def Takes (r : Reader α) (n : Nat) : Prop :=
  ∀ (bytes rest : Bytes) (a : α), r bytes = .ok (a, rest) → rest.length + n ≤ bytes.length

theorem takes_pure (a : α) : Takes (Pure.pure a) 0 := by
  intro bytes rest b h
  cases h
  exact Nat.le_refl _

theorem takes_throw (e : FormatError) (n : Nat) : Takes (throw e : Reader α) n := by
  intro bytes rest b h
  cases h

theorem Takes.bind {r : Reader α} {f : α → Reader β} {n k : Nat} (hr : Takes r n)
    (hf : ∀ a, Takes (f a) k) : Takes (r >>= f) (n + k) := by
  intro bytes rest b h
  obtain ⟨a, mid, h₁, h₂⟩ := reader_bind_eq_ok h
  have hmid := hr _ _ _ h₁
  have hrest := hf a _ _ _ h₂
  omega

theorem Takes.map {r : Reader α} {n : Nat} (hr : Takes r n) (f : α → β) : Takes (f <$> r) n := by
  rw [map_eq_pure_bind]
  exact hr.bind (fun a => takes_pure (f a))

theorem takes_u8 : Takes Reader.u8 1 := by
  intro bytes rest b h
  cases bytes with
  | nil => cases h
  | cons c bytes =>
    cases h
    exact Nat.le_refl _

theorem takes_u16 : Takes Reader.u16 2 :=
  takes_u8.bind (fun _ => takes_u8.bind (fun _ => takes_pure _))

theorem takes_u32 : Takes Reader.u32 4 :=
  takes_u16.bind (fun _ => takes_u16.bind (fun _ => takes_pure _))

theorem takes_take (n : Nat) : Takes (Reader.take n) n := by
  intro bytes rest front h
  unfold Reader.take at h
  dsimp only at h
  split at h
  · rename_i hlength
    cases h
    have happend := congrArg List.length (List.take_append_drop n bytes)
    rw [List.length_append] at happend
    have hfront : (bytes.take n).length = n := by simpa using hlength
    simp only [List.splitAt_eq]
    omega
  · cases h

theorem Takes.mono {r : Reader α} {n k : Nat} (hr : Takes r n) (hk : k ≤ n) : Takes r k := by
  intro bytes rest a h
  have hlength := hr _ _ _ h
  omega

theorem takes_readUtf8 : Takes readUtf8 0 := by
  refine Takes.mono (takes_u16.bind (k := 0) fun length => ?_) (Nat.zero_le _)
  refine Takes.mono ((takes_take length.toNat).bind (k := 0) fun bytes => ?_) (Nat.zero_le _)
  split
  · exact takes_pure _
  · exact takes_throw _ _

theorem takes_readPair {r : Reader α} {n : Nat} (hr : Takes r n) (make : α → α → β) :
    Takes (readPair r make) 0 :=
  (hr.bind (fun _ => hr.bind (fun _ => takes_pure _))).mono (Nat.zero_le _)

theorem takes_readBody (tag : ConstantTag) : Takes (readBody tag) 0 := by
  have h16 := fun make : UInt16 → Constant => (takes_u16.map make).mono (Nat.zero_le 2)
  have h32 := fun make : UInt32 → Constant => (takes_u32.map make).mono (Nat.zero_le 4)
  cases tag with
  | utf8 => exact takes_readUtf8.map _
  | integer => exact h32 _
  | float => exact h32 _
  | long => exact takes_readPair takes_u32 _
  | double => exact takes_readPair takes_u32 _
  | methodHandle =>
    exact (takes_u8.bind (fun _ => takes_u16.bind (fun _ => takes_pure _))).mono (Nat.zero_le _)
  | classRef => exact h16 _
  | stringRef => exact h16 _
  | methodType => exact h16 _
  | moduleName => exact h16 _
  | packageName => exact h16 _
  | fieldref => exact takes_readPair takes_u16 _
  | methodref => exact takes_readPair takes_u16 _
  | interfaceMethodref => exact takes_readPair takes_u16 _
  | nameAndType => exact takes_readPair takes_u16 _
  | dynamic => exact takes_readPair takes_u16 _
  | invokeDynamic => exact takes_readPair takes_u16 _

/-- A constant takes at least the byte of its kind. -/
theorem takes_readConstant : Takes readConstant 1 := by
  refine takes_u8.bind (k := 0) fun code => ?_
  split
  · exact takes_readBody _
  · exact takes_throw _ _

/-! ## Texts take bytes -/

theorem length_texts_cons (c : Constant) (constants : List Constant) :
    (Constant.texts (c :: constants)).length ≤ (Constant.texts constants).length + 1 := by
  unfold Constant.texts
  rw [List.filterMap_cons]
  split <;> simp

theorem length_texts_reverse (constants : List Constant) :
    (Constant.texts constants.reverse).length = (Constant.texts constants).length := by
  unfold Constant.texts
  rw [List.filterMap_reverse, List.length_reverse]

/-- Each new text in the pool has taken a byte at least. -/
theorem length_texts_readSlots {n : Nat} {owed : Bool} {done pool : List Constant}
    {bytes rest : Bytes} (h : readSlots n owed done bytes = .ok (pool, rest)) :
    (Constant.texts pool).length + rest.length ≤ (Constant.texts done).length + bytes.length := by
  induction n generalizing owed done bytes with
  | zero =>
    cases h
    rw [length_texts_reverse]
    cases owed with
    -- A slot that is owed when the count is used up becomes a hole, which is no text.
    | false => exact Nat.le_refl _
    | true => exact Nat.le_refl _
  | succ n ih =>
    cases owed with
    | true =>
      -- A hole takes no bytes, and it adds no text.
      have hslots : readSlots n false (.hole :: done) bytes = .ok (pool, rest) := h
      have hpool := ih hslots
      exact hpool
    | false =>
      obtain ⟨c, mid, hconstant, hslots⟩ := reader_bind_eq_ok h
      have hmid := takes_readConstant _ _ _ hconstant
      have hpool := ih hslots
      have hdone := length_texts_cons c done
      omega

/-- The pool of a file is read after the magic number and the version. -/
theorem readPool_of_readFile {file : ClassFile} {bytes rest : Bytes}
    (h : readFile bytes = .ok (file, rest)) :
    ∃ magic minor major bytes₁ bytes₂ bytes₃ bytes₄,
      Reader.u32 bytes = .ok (magic, bytes₁) ∧ Reader.u16 bytes₁ = .ok (minor, bytes₂) ∧
      Reader.u16 bytes₂ = .ok (major, bytes₃) ∧
      readPool bytes₃ = .ok (file.pool.toList, bytes₄) := by
  obtain ⟨magic, bytes₁, h₁, h⟩ := reader_bind_eq_ok h
  split at h
  · obtain ⟨_, _, hthrow, _⟩ := reader_bind_eq_ok h
    cases hthrow
  obtain ⟨minor, bytes₂, h₂, h⟩ := reader_bind_eq_ok h
  obtain ⟨major, bytes₃, h₃, h⟩ := reader_bind_eq_ok h
  obtain ⟨pool, bytes₄, hpool, h⟩ := reader_bind_eq_ok h
  -- What follows the pool does not change it.
  obtain ⟨_, _, _, h⟩ := reader_bind_eq_ok h
  obtain ⟨_, _, _, h⟩ := reader_bind_eq_ok h
  obtain ⟨_, _, _, h⟩ := reader_bind_eq_ok h
  obtain ⟨_, _, _, h⟩ := reader_bind_eq_ok h
  obtain ⟨_, _, _, h⟩ := reader_bind_eq_ok h
  obtain ⟨_, _, _, h⟩ := reader_bind_eq_ok h
  obtain ⟨_, _, _, h⟩ := reader_bind_eq_ok h
  cases h
  exact ⟨magic, minor, major, bytes₁, bytes₂, bytes₃, bytes₄, h₁, h₂, h₃, hpool⟩

/-- An accepted file is read to its end, and then its bootstrap table is found. -/
theorem readFile_of_parse {file : ClassFile} {bytes : Bytes} (h : parse bytes = .ok file) :
    ∃ table, readFile bytes = .ok ({ file with bootstrapMethods := table }, []) := by
  obtain ⟨⟨read, rest⟩, hread, h⟩ := except_bind_eq_ok h
  dsimp only at h
  split at h
  · obtain ⟨_, hthrow, _⟩ := except_bind_eq_ok h
    cases hthrow
  rename_i hempty
  obtain ⟨table, -, h⟩ := except_bind_eq_ok h
  cases h
  have hrest : rest = [] := by simpa using hempty
  exact ⟨read.bootstrapMethods, by rw [hread, hrest]⟩

theorem length_texts_readFile {bytes rest : Bytes} {file : ClassFile}
    (h : readFile bytes = .ok (file, rest)) :
    (Constant.texts file.pool.toList).length ≤ bytes.length := by
  obtain ⟨magic, minor, major, bytes₁, bytes₂, bytes₃, bytes₄, h₁, h₂, h₃, hpool⟩ :=
    readPool_of_readFile h
  obtain ⟨count, bytes₅, h₅, hslots⟩ := reader_bind_eq_ok hpool
  have hlength₁ := takes_u32 _ _ _ h₁
  have hlength₂ := takes_u16 _ _ _ h₂
  have hlength₃ := takes_u16 _ _ _ h₃
  have hlength₅ := takes_u16 _ _ _ h₅
  have htexts := length_texts_readSlots hslots
  have hnil : (Constant.texts []).length = 0 := rfl
  omega

end ClassFile

theorem length_fileTexts_le (bytes : Bytes) : (fileTexts bytes).length ≤ bytes.length := by
  unfold fileTexts
  split
  · rename_i file hparse
    obtain ⟨table, hread⟩ := ClassFile.readFile_of_parse hparse
    have hlength := ClassFile.length_texts_readFile hread
    exact hlength
  · exact Nat.zero_le _

theorem length_flatMap_le {α β γ : Type} {f : α → List β} {g : α → List γ} (l : List α)
    (h : ∀ a ∈ l, (f a).length ≤ (g a).length) :
    (l.flatMap f).length ≤ (l.flatMap g).length := by
  induction l with
  | nil => exact Nat.le_refl _
  | cons a l ih =>
    rw [List.flatMap_cons, List.flatMap_cons, List.length_append, List.length_append]
    exact Nat.add_le_add (h a List.mem_cons_self) (ih (fun b hb => h b (List.mem_cons_of_mem a hb)))

/-- There are no more texts than bytes. -/
theorem ClassPath.length_texts_le (p : ClassPath) : p.texts.length ≤ p.size := by
  refine length_flatMap_le _ (fun d _ => ?_)
  exact length_flatMap_le d (fun file _ => length_fileTexts_le file.2)

/-! ## Supertypes are texts -/

theorem ClassFile.entry_mem {file : ClassFile} {index : UInt16} {c : Constant}
    (h : file.entry index = .ok c) : c ∈ file.pool.toList := by
  unfold ClassFile.entry at h
  split at h
  · cases h
  · split at h
    · rename_i found
      cases h
      exact (Array.mem_of_getElem? found).val
    · cases h

theorem ClassFile.utf8_mem {file : ClassFile} {index : UInt16} {text : String}
    (h : file.utf8 index = .ok text) : text ∈ Constant.texts file.pool.toList := by
  obtain ⟨c, hentry, h⟩ := except_bind_eq_ok h
  split at h
  · cases h
    exact List.mem_filterMap.mpr ⟨_, ClassFile.entry_mem hentry, rfl⟩
  · cases h

theorem ClassFile.className_mem {file : ClassFile} {index : UInt16} {name : String}
    (h : file.className index = .ok name) : name ∈ Constant.texts file.pool.toList := by
  obtain ⟨c, _, h⟩ := except_bind_eq_ok h
  split at h
  · exact ClassFile.utf8_mem h
  · cases h

theorem mapM_mem {ε α β : Type} {f : α → Except ε β} {l : List α} {bs : List β} {b : β}
    (h : l.mapM f = .ok bs) (hb : b ∈ bs) : ∃ a, f a = .ok b := by
  induction l generalizing bs with
  | nil =>
    cases h
    cases hb
  | cons a l ih =>
    rw [List.mapM_cons] at h
    obtain ⟨first, hfirst, h⟩ := except_bind_eq_ok h
    obtain ⟨others, hothers, h⟩ := except_bind_eq_ok h
    cases h
    rcases List.mem_cons.mp hb with rfl | hb
    · exact ⟨a, hfirst⟩
    · exact ih hothers hb

/-- The supertypes of a declared class are those that its file refers to. -/
theorem ClassDeclaration.ofFile_supertypes {file : ClassFile} {d : ClassDeclaration}
    (h : ofFile file = .ok d) :
    (∀ s, d.superclass = some s → file.className file.superClass = .ok s) ∧
      file.interfaces.mapM file.className = .ok d.interfaces := by
  obtain ⟨name, _, h⟩ := except_bind_eq_ok h
  dsimp only at h
  split at h
  · -- A file without a superclass.
    obtain ⟨superclass, hsuper, h⟩ := except_bind_eq_ok h
    obtain ⟨interfaces, hinterfaces, h⟩ := except_bind_eq_ok h
    obtain ⟨fields, _, h⟩ := except_bind_eq_ok h
    obtain ⟨methods, _, h⟩ := except_bind_eq_ok h
    obtain ⟨constants, _, h⟩ := except_bind_eq_ok h
    cases h
    cases hsuper
    refine ⟨fun s hs => ?_, hinterfaces⟩
    cases hs
  · -- A file with one, which is named by an entry of the pool.
    obtain ⟨superclass, hsuper, h⟩ := except_bind_eq_ok h
    obtain ⟨interfaces, hinterfaces, h⟩ := except_bind_eq_ok h
    obtain ⟨fields, _, h⟩ := except_bind_eq_ok h
    obtain ⟨methods, _, h⟩ := except_bind_eq_ok h
    obtain ⟨constants, _, h⟩ := except_bind_eq_ok h
    cases h
    rw [map_eq_pure_bind] at hsuper
    obtain ⟨name, hname, hsuper⟩ := except_bind_eq_ok hsuper
    cases hsuper
    refine ⟨fun s hs => ?_, hinterfaces⟩
    cases hs
    exact hname

/-- They are named by texts of the file. -/
theorem supertypes_subset_fileTexts {bytes : Bytes} {d : ClassDeclaration}
    (h : declarationOf bytes = .ok d) : ∀ s ∈ d.supertypes, s ∈ fileTexts bytes := by
  obtain ⟨file, hparse, hfile⟩ := except_bind_eq_ok h
  have htexts : fileTexts bytes = Constant.texts file.pool.toList := by
    unfold fileTexts
    rw [hparse]
  obtain ⟨hsuper, hinterfaces⟩ := ClassDeclaration.ofFile_supertypes hfile
  intro s hs
  rw [htexts]
  rcases List.mem_append.mp hs with hs | hs
  · exact ClassFile.className_mem (hsuper s (by simpa using hs))
  · obtain ⟨index, hindex⟩ := mapM_mem hinterfaces hs
    exact ClassFile.className_mem hindex

/-- A file that is found is one of the class path. -/
theorem ClassPath.exists_file_of_find? {p : ClassPath} {name : String} {bytes : Bytes}
    (h : p.find? name = some bytes) :
    ∃ d ∈ p.directories, ∃ file ∈ d, file.2 = bytes ∧
      Directory.collapse file.1.toList = Directory.collapse (fileName name).toList := by
  obtain ⟨d, hd, hread⟩ := List.exists_of_findSome?_eq_some h
  obtain ⟨file, hfile, rfl⟩ := Option.map_eq_some_iff.mp hread
  refine ⟨d, hd, file, List.mem_of_find?_eq_some hfile, rfl, ?_⟩
  simpa using List.find?_some hfile

theorem ClassPath.supertypes_subset_texts {p : ClassPath} {name : String} {bytes : Bytes}
    {d : ClassDeclaration} (hfind : p.find? name = some bytes) (hd : declarationOf bytes = .ok d) :
    ∀ s ∈ d.supertypes, s ∈ p.texts := by
  intro s hs
  obtain ⟨dir, hdir, file, hfile, rfl, _⟩ := ClassPath.exists_file_of_find? hfind
  exact List.mem_flatMap.mpr ⟨dir, hdir, List.mem_flatMap.mpr
    ⟨file, hfile, supertypes_subset_fileTexts hd s hs⟩⟩

end Linkage
