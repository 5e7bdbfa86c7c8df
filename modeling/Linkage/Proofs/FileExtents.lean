import Linkage.Proofs.FileBytes

/-! # Where a file ends

    A file says itself where it ends. No other file begins with its bytes, and none of
    their prefixes is a file.

    * `Exhausts r front a`: the reader takes `front`, whatever follows, and runs out of
      bytes on less of it. Readers compose, and so do the bytes.
    * `Sequential r`: whatever the reader reads, it reads in this way. It never looks at
      the bytes that it leaves, and it asks for no byte that it does not take.
    * The slots of a pool are those that its count declares, and one more where the last
      of them holds a wide constant. -/

namespace Linkage

open Text (Bytes)

namespace ClassFile

variable {α β : Type} {bytes rest front back short : Bytes}

/-! ## Bytes that are all needed -/

/-- The reader takes these bytes, whatever follows them, and runs out of bytes if some of
    them are missing at the end. -/
structure Exhausts (r : Reader α) (front : Bytes) (a : α) : Prop where
  reads : Reads r front a
  starves : ∀ short, short <+: front → short ≠ front → r short = .error .truncated

/-- The reader takes what it needs, from left to right. -/
def Sequential (r : Reader α) : Prop :=
  ∀ ⦃bytes a rest⦄, r bytes = .ok (a, rest) → ∃ front, bytes = front ++ rest ∧ Exhausts r front a

theorem Exhausts.pure (a : α) : Exhausts (Pure.pure a) [] a where
  reads := Reads.pure a
  starves _ hshort hproper := absurd (List.prefix_nil.mp hshort) hproper

/-- What lacks bytes of two parts at the end lacks bytes of the first part, or of the second
    part only. -/
theorem proper_prefix_cases (h : short <+: front ++ back) (hproper : short ≠ front ++ back) :
    (short <+: front ∧ short ≠ front) ∨
      ∃ more, short = front ++ more ∧ more <+: back ∧ more ≠ back := by
  by_cases hin : short <+: front ∧ short ≠ front
  · exact .inl hin
  · right
    have hfront : front <+: short := by
      obtain hshort | hfront := List.prefix_or_prefix_of_prefix h (List.prefix_append front back)
      · exact not_and_not_right.mp hin hshort ▸ List.prefix_rfl
      · exact hfront
    obtain ⟨more, rfl⟩ := hfront
    refine ⟨more, rfl, (List.prefix_append_right_inj front).mp h, ?_⟩
    rintro rfl
    exact hproper rfl

theorem Exhausts.bind {r : Reader α} {f : α → Reader β} {a : α} {b : β}
    (hr : Exhausts r front a) (hf : Exhausts (f a) back b) :
    Exhausts (r >>= f) (front ++ back) b where
  reads := hr.reads.bind hf.reads
  starves := by
    intro short hshort hproper
    show (r short >>= fun x => f x.1 x.2) = _
    obtain ⟨hin, hne⟩ | ⟨more, rfl, hmore, hne⟩ := proper_prefix_cases hshort hproper
    · rw [hr.starves short hin hne]
      rfl
    · rw [hr.reads more]
      exact hf.starves more hmore hne

/-! ## Readers in a row -/

theorem sequential_pure (a : α) : Sequential (Pure.pure a : Reader α) := by
  intro bytes b rest h
  cases h
  exact ⟨[], rfl, .pure a⟩

theorem sequential_throw (e : FormatError) : Sequential (throw e : Reader α) := by
  intro bytes a rest h
  cases h

theorem sequential_bind {r : Reader α} {f : α → Reader β} (hr : Sequential r)
    (hf : ∀ a, Sequential (f a)) : Sequential (r >>= f) := by
  intro bytes b rest h
  obtain ⟨a, mid, ha, hb⟩ := reader_bind_eq_ok h
  obtain ⟨front, rfl, hfront⟩ := hr ha
  obtain ⟨back, rfl, hback⟩ := hf a hb
  exact ⟨front ++ back, (List.append_assoc front back rest).symm, hfront.bind hback⟩

theorem sequential_map {r : Reader α} (f : α → β) (hr : Sequential r) :
    Sequential (f <$> r) := by
  rw [map_eq_pure_bind]
  exact sequential_bind hr (fun a => sequential_pure (f a))

theorem sequential_u8 : Sequential Reader.u8 := by
  intro bytes b rest h
  refine ⟨[b], canonical_u8 h, reads_u8 b, ?_⟩
  intro short hshort hproper
  obtain rfl : short = [] := by
    obtain hempty | ⟨more, rfl, hmore⟩ := List.prefix_cons_iff.mp hshort
    · exact hempty
    · rw [List.prefix_nil.mp hmore] at hproper
      exact absurd rfl hproper
  rfl

theorem sequential_u16 : Sequential Reader.u16 :=
  sequential_bind sequential_u8 (fun _ => sequential_bind sequential_u8
    (fun _ => sequential_pure _))

theorem sequential_u32 : Sequential Reader.u32 :=
  sequential_bind sequential_u16 (fun _ => sequential_bind sequential_u16
    (fun _ => sequential_pure _))

theorem sequential_take (n : Nat) : Sequential (Reader.take n) := by
  intro bytes front rest h
  obtain ⟨hbytes, rfl⟩ := take_eq_ok h
  refine ⟨front, hbytes, reads_take front, ?_⟩
  intro short hshort hproper
  have hlength : (short.take front.length).length ≠ front.length := by
    rw [List.take_of_length_le hshort.length_le]
    exact fun heq => hproper (hshort.eq_of_length heq)
  rw [Reader.take, List.splitAt_eq]
  exact if_neg hlength

theorem sequential_manyAfter {r : Reader α} (hr : Sequential r) (n : Nat) (done : List α) :
    Sequential (Reader.manyAfter r n done) := by
  induction n generalizing done with
  | zero => exact sequential_pure done.reverse
  | succ n ih => exact sequential_bind hr (fun a => ih (a :: done))

theorem sequential_counted {r : Reader α} (hr : Sequential r) : Sequential (Reader.counted r) :=
  sequential_bind sequential_u16 (fun n => sequential_manyAfter hr n.toNat [])

/-! ## The parts of a file -/

theorem sequential_utf8 : Sequential readUtf8 := by
  refine sequential_bind sequential_u16 (fun length => ?_)
  refine sequential_bind (sequential_take length.toNat) (fun bytes => ?_)
  cases Text.decodeUtf8 bytes with
  | ok text => exact sequential_pure text
  | error fault => exact sequential_throw (.utf8 fault)

theorem sequential_pair {r : Reader α} (make : α → α → β) (hr : Sequential r) :
    Sequential (readPair r make) :=
  sequential_bind hr (fun _ => sequential_bind hr (fun _ => sequential_pure _))

theorem sequential_body (tag : ConstantTag) : Sequential (readBody tag) := by
  cases tag with
  | utf8 => exact sequential_map Constant.utf8 sequential_utf8
  | integer => exact sequential_map Constant.integer sequential_u32
  | float => exact sequential_map Constant.float sequential_u32
  | long => exact sequential_pair Constant.long sequential_u32
  | double => exact sequential_pair Constant.double sequential_u32
  | methodHandle =>
    exact sequential_bind sequential_u8 (fun kind => sequential_map _ sequential_u16)
  | fieldref => exact sequential_pair Constant.fieldref sequential_u16
  | methodref => exact sequential_pair Constant.methodref sequential_u16
  | interfaceMethodref => exact sequential_pair Constant.interfaceMethodref sequential_u16
  | nameAndType => exact sequential_pair Constant.nameAndType sequential_u16
  | dynamic => exact sequential_pair Constant.dynamic sequential_u16
  | invokeDynamic => exact sequential_pair Constant.invokeDynamic sequential_u16
  | classRef => exact sequential_map Constant.classRef sequential_u16
  | stringRef => exact sequential_map Constant.stringRef sequential_u16
  | methodType => exact sequential_map Constant.methodType sequential_u16
  | moduleName => exact sequential_map Constant.moduleName sequential_u16
  | packageName => exact sequential_map Constant.packageName sequential_u16

theorem sequential_constant : Sequential readConstant := by
  refine sequential_bind sequential_u8 (fun code => ?_)
  cases ConstantTag.ofCode? code with
  | some tag => exact sequential_body tag
  | none => exact sequential_throw (.unknownTag code)

theorem sequential_slots (n : Nat) (owed : Bool) (done : List Constant) :
    Sequential (readSlots n owed done) := by
  induction n generalizing owed done with
  | zero => exact sequential_pure _
  | succ n ih =>
    cases owed with
    | true => exact ih false (.hole :: done)
    | false => exact sequential_bind sequential_constant (fun c => ih c.isWide (c :: done))

theorem sequential_pool : Sequential readPool :=
  sequential_bind sequential_u16 (fun count => sequential_slots (count.toNat - 1) false [])

theorem sequential_attribute : Sequential readAttribute := by
  refine sequential_bind sequential_u16 (fun nameIndex => ?_)
  refine sequential_bind sequential_u32 (fun length => ?_)
  exact sequential_bind (sequential_take length.toNat) (fun info => sequential_pure _)

theorem sequential_member : Sequential readMember := by
  refine sequential_bind sequential_u16 (fun access => ?_)
  refine sequential_bind sequential_u16 (fun nameIndex => ?_)
  refine sequential_bind sequential_u16 (fun descriptorIndex => ?_)
  exact sequential_bind (sequential_counted sequential_attribute) (fun _ => sequential_pure _)

theorem sequential_file : Sequential readFile := by
  refine sequential_bind sequential_u32 (fun found => ?_)
  split
  · -- A file with another magic number is not read at all.
    intro bytes file rest h
    obtain ⟨_, _, hthrow, _⟩ := reader_bind_eq_ok h
    cases hthrow
  refine sequential_bind sequential_u16 (fun minor => ?_)
  refine sequential_bind sequential_u16 (fun major => ?_)
  refine sequential_bind sequential_pool (fun pool => ?_)
  refine sequential_bind sequential_u16 (fun access => ?_)
  refine sequential_bind sequential_u16 (fun thisClass => ?_)
  refine sequential_bind sequential_u16 (fun superClass => ?_)
  refine sequential_bind (sequential_counted sequential_u16) (fun interfaces => ?_)
  refine sequential_bind (sequential_counted sequential_member) (fun fields => ?_)
  refine sequential_bind (sequential_counted sequential_member) (fun methods => ?_)
  exact sequential_bind (sequential_counted sequential_attribute) (fun _ => sequential_pure _)

/-! ## The whole file -/

theorem parse_of_error {e : FormatError} (h : readFile bytes = .error e) :
    parse bytes = .error e := by
  rw [parse, h]
  rfl

theorem parse_of_rest {file : ClassFile} (h : readFile bytes = .ok (file, rest))
    (hrest : rest ≠ []) : parse bytes = .error .trailingBytes := by
  cases rest with
  | nil => exact absurd rfl hrest
  | cons b rest =>
    rw [parse, h]
    rfl

/-- An accepted file has neither too few bytes nor too many: a part of it ends too early,
    and what is longer has bytes left over. -/
theorem parse_exact_extent {file : ClassFile} (h : parse bytes = .ok file) :
    (∀ short, short <+: bytes → short ≠ bytes → parse short = .error .truncated) ∧
      ∀ more, more ≠ [] → parse (bytes ++ more) = .error .trailingBytes := by
  obtain ⟨table, hread⟩ := readFile_of_parse h
  obtain ⟨front, hbytes, hfile⟩ := sequential_file hread
  obtain rfl : bytes = front := by rw [hbytes, List.append_nil]
  constructor
  · intro short hshort hproper
    exact parse_of_error (hfile.starves short hshort hproper)
  · intro more hmore
    exact parse_of_rest (hfile.reads more) hmore

/-- A file in full, all but its last byte, and the file twice. -/
theorem parse_exact_extent_sampleFile :
    parse sampleFile.encode = .ok sampleFile ∧
      parse sampleFile.encode.dropLast = .error .truncated ∧
      parse (sampleFile.encode ++ sampleFile.encode) = .error .trailingBytes := by
  have hparse : parse sampleFile.encode = .ok sampleFile := Succeeds.eq_ok (by decide +kernel)
  have hne : sampleFile.encode ≠ [] := by decide +kernel
  obtain ⟨hshort, hlong⟩ := parse_exact_extent hparse
  refine ⟨hparse, hshort _ (List.dropLast_prefix _) ?_, hlong _ hne⟩
  intro heq
  have hlength := congrArg List.length heq
  have hpos := List.length_pos_iff.mpr hne
  rw [List.length_dropLast] at hlength
  omega

/-! ## The size of the pool -/

/-- The slots are those that are there and those asked for. A wide constant in the last one
    gets its hole nevertheless. -/
theorem slots_of_readSlots {n : Nat} {owed : Bool} {done pool : List Constant}
    (h : readSlots n owed done bytes = .ok (pool, rest))
    (howed : owed = done.head?.any Constant.isWide) :
    ∃ slots : List Constant, slots.length = done.length + n ∧
      pool = slots ++ if slots.getLast?.any Constant.isWide then [.hole] else [] := by
  induction n generalizing owed done bytes with
  | zero =>
    cases h
    refine ⟨done.reverse, List.length_reverse, ?_⟩
    rw [List.getLast?_reverse, ← howed]
    cases owed <;> simp
  | succ n ih =>
    -- The slot that is filled next is the first of `done` from now on.
    have hslots : done.length + (n + 1) = done.length + 1 + n := by omega
    rw [hslots]
    cases owed with
    | true => exact ih h rfl
    | false =>
      obtain ⟨c, mid, -, h⟩ := reader_bind_eq_ok h
      exact ih h rfl

/-- The pool of a file is read with the count that the file stores. -/
theorem readSlots_of_readFile {file : ClassFile} (h : readFile bytes = .ok (file, rest)) :
    ∃ mid mid', readSlots ((storedCount bytes).toNat - 1) false [] mid =
      .ok (file.pool.toList, mid') := by
  obtain ⟨magic, minor, major, bytes₁, bytes₂, bytes₃, bytes₄, hmagic, hminor, hmajor, hpool⟩ :=
    readPool_of_readFile h
  obtain ⟨count, mid, hcount, hslots⟩ := reader_bind_eq_ok hpool
  have hstored : storedCount bytes = count := by
    rw [canonical_u32 hmagic, canonical_u16 hminor, canonical_u16 hmajor, canonical_u16 hcount,
      ← List.append_assoc, ← List.append_assoc]
    exact storedCount_append rfl count mid
  rw [hstored]
  exact ⟨mid, bytes₄, hslots⟩

/-- The pool of an accepted file has the slots that the file's count declares, one less than
    the count and none for a count of 0. Nothing follows them but the hole of a wide constant
    in the last one, which makes the pool larger than declared. -/
theorem pool_size_of_parse {file : ClassFile} (h : parse bytes = .ok file) :
    ∃ slots : List Constant, slots.length = max (storedCount bytes).toNat 1 - 1 ∧
      file.pool.toList = (slots ++ if slots.getLast?.any Constant.isWide then [.hole] else []) ∧
      file.pool.size = max (storedCount bytes).toNat 1 - 1 +
        if slots.getLast?.any Constant.isWide then 1 else 0 := by
  obtain ⟨table, hread⟩ := readFile_of_parse h
  obtain ⟨mid, mid', hslots⟩ := readSlots_of_readFile hread
  obtain ⟨slots, hlength, hpool⟩ := slots_of_readSlots hslots rfl
  have hcount : slots.length = max (storedCount bytes).toNat 1 - 1 := by
    rw [hlength, List.length_nil]
    omega
  refine ⟨slots, hcount, hpool, ?_⟩
  rw [← Array.length_toList, ← hcount]
  exact (congrArg List.length hpool).trans (by split <;> simp)

/-- Seven slots are declared, and a double is in the last one. -/
theorem pool_size_of_parse_sampleFile :
    parse (sampleFile.encodeWith 8) = .ok sampleFile ∧
      (storedCount (sampleFile.encodeWith 8)).toNat = 8 ∧ sampleFile.pool.size = 8 ∧
      ∃ slots : List Constant, slots.length = 7 ∧ sampleFile.pool.toList = slots ++ [.hole] := by
  have hparse : parse (sampleFile.encodeWith 8) = .ok sampleFile :=
    Succeeds.eq_ok (by decide +kernel)
  obtain ⟨slots, hlength, hpool, hsize⟩ := pool_size_of_parse hparse
  rw [storedCount_encodeWith] at hlength hsize ⊢
  have hcount : sampleFile.pool.size = 8 := rfl
  refine ⟨hparse, rfl, hcount, slots, hlength, ?_⟩
  -- One slot more than declared: the last of them is wide.
  by_cases hwide : slots.getLast?.any Constant.isWide
  · rwa [if_pos hwide] at hpool
  · rw [if_neg hwide, hcount] at hsize
    cases hsize

end ClassFile

end Linkage
