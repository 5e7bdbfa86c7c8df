import Mathlib.Tactic.SplitIfs
import Linkage.ClassFile.Annotation
import Linkage.Proofs.FileExtents

/-! # Annotations of any shape

    Annotations hold values and values hold annotations, so skipping one takes exactly its
    bytes only if skipping everything inside it does.

    * `AnnotationTree` and `ElementValue` are the annotations and their values, with the
      bytes they are written as.
    * `skipValue` is bounded. More than the number of bytes is a bound that is never felt
      (`skipValue_eq_of_lt`): the reader `value` has none, and satisfies the equation that
      the kinds of values give it (`value_eq`).
    * A written annotation is skipped to its last byte, whatever follows
      (`reads_tree`), so only the annotations at the top are looked at. -/

namespace Linkage.ClassFile

open Text (Bytes)
open Reader (u8 u16)

namespace Annotation

/-! ## Annotations as trees -/

/-- The kinds of values that are one index. -/
inductive IndexKind where
  | byte
  | char
  | double
  | float
  | int
  | long
  | short
  | boolean
  | string
  | classInfo
  deriving DecidableEq

/-- The letter in front of a value that is one index. -/
def IndexKind.letter : IndexKind → Char
  | .byte => 'B'
  | .char => 'C'
  | .double => 'D'
  | .float => 'F'
  | .int => 'I'
  | .long => 'J'
  | .short => 'S'
  | .boolean => 'Z'
  | .string => 's'
  | .classInfo => 'c'

/-- The value of an element of an annotation. Numbers are indices of the pool. -/
inductive ElementValue where
  | indexed (kind : IndexKind) (index : UInt16)
  | enumConstant (type name : UInt16)
  /-- An annotation, by its type and its elements with their names. -/
  | nested (type : UInt16) (elements : List (UInt16 × ElementValue))
  | array (values : List ElementValue)

/-- An annotation: its type, and its elements with their names. -/
structure AnnotationTree where
  type : UInt16
  elements : List (UInt16 × ElementValue)

/-- The bytes of a value. -/
def ElementValue.encode : ElementValue → Bytes
  | .indexed kind index => kind.letter.toUInt8 :: encodeU16 index
  | .enumConstant type name => 'e'.toUInt8 :: (encodeU16 type ++ encodeU16 name)
  | .nested type elements =>
      '@'.toUInt8 :: (encodeU16 type ++ (encodeU16 (UInt16.ofNat elements.length) ++
        elements.flatMap (fun e => encodeU16 e.1 ++ e.2.encode)))
  | .array values =>
      '['.toUInt8 :: (encodeU16 (UInt16.ofNat values.length) ++ values.flatMap encode)
decreasing_by
  · rename_i he
    have hlist := List.sizeOf_lt_of_mem he
    have hpair : sizeOf e = 1 + sizeOf e.1 + sizeOf e.2 := by
      cases e
      rfl
    simp only [nested.sizeOf_spec]
    omega
  · rename_i hv
    have hlist := List.sizeOf_lt_of_mem hv
    simp only [array.sizeOf_spec]
    omega

/-- The bytes of an annotation. -/
def AnnotationTree.encode (a : AnnotationTree) : Bytes :=
  encodeU16 a.type ++ encodeCounted (fun e => encodeU16 e.1 ++ e.2.encode) a.elements

/-- Every count inside the value fits into 16 bits. -/
inductive ElementValue.Encodable : ElementValue → Prop where
  | indexed (kind : IndexKind) (index : UInt16) : Encodable (.indexed kind index)
  | enumConstant (type name : UInt16) : Encodable (.enumConstant type name)
  | nested {type : UInt16} {elements : List (UInt16 × ElementValue)}
      (count : elements.length ≤ 65535) (each : ∀ e ∈ elements, Encodable e.2) :
      Encodable (.nested type elements)
  | array {values : List ElementValue} (count : values.length ≤ 65535)
      (each : ∀ v ∈ values, Encodable v) : Encodable (.array values)

/-- Every count of the annotation fits into 16 bits. -/
structure AnnotationTree.Encodable (a : AnnotationTree) : Prop where
  count : a.elements.length ≤ 65535
  each : ∀ e ∈ a.elements, e.2.Encodable

/-! ## The reader without a bound -/

/-- What follows the letter of a value, with `inner` for the values inside. -/
def valueAfter (inner : Reader Unit) (letter : Char) : Reader Unit :=
  if constantLetters.contains letter then do
    let _ ← u16
  else if letter = 'e' then do
    let _ ← u16
    let _ ← u16
  else if letter = '@' then do
    let _ ← read inner
  else if letter = '[' then do
    let count ← u16
    let _ ← Reader.many count.toNat inner
  else throw malformed

/-- A value, with `inner` for the values inside. -/
def valueWith (inner : Reader Unit) : Reader Unit := do
  let letter := Char.ofUInt8 (← u8)
  valueAfter inner letter

/-- Skip a value, however deep it is nested. -/
def value : Reader Unit := fun bytes =>
  skipValue (bytes.length + 1) bytes

/-- Two readers agree on fewer than `n` bytes. -/
def AgreeBelow {α : Type} (n : Nat) (r r' : Reader α) : Prop :=
  ∀ bytes : Bytes, bytes.length < n → r bytes = r' bytes

section Agreement

variable {α β : Type} {n : Nat} {r r' : Reader α}

theorem AgreeBelow.refl (n : Nat) (r : Reader α) : AgreeBelow n r r := fun _ _ => rfl

theorem AgreeBelow.mono {k : Nat} (h : AgreeBelow n r r') (hk : k ≤ n) : AgreeBelow k r r' :=
  fun bytes hbytes => h bytes (Nat.lt_of_lt_of_le hbytes hk)

/-- A reader does not leave more bytes than there were. -/
theorem length_le_of_sequential {a : α} {bytes rest : Bytes} (hr : Sequential r)
    (h : r bytes = .ok (a, rest)) : rest.length ≤ bytes.length := by
  obtain ⟨front, rfl, -⟩ := hr h
  rw [List.length_append]
  exact Nat.le_add_left _ _

theorem AgreeBelow.bind {f f' : α → Reader β} (hr : AgreeBelow n r r') (hs : Sequential r)
    (hf : ∀ a, AgreeBelow n (f a) (f' a)) : AgreeBelow n (r >>= f) (r' >>= f') := by
  intro bytes hbytes
  show (r bytes >>= fun x => f x.1 x.2) = (r' bytes >>= fun x => f' x.1 x.2)
  rw [← hr bytes hbytes]
  cases hrun : r bytes with
  | error e => rfl
  | ok x =>
    have hle := length_le_of_sequential hs hrun
    exact hf x.1 x.2 (by omega)

/-- Behind a byte that is read there are fewer bytes. -/
theorem AgreeBelow.after_u8 {f f' : UInt8 → Reader β} (hf : ∀ b, AgreeBelow n (f b) (f' b)) :
    AgreeBelow (n + 1) (u8 >>= f) (u8 >>= f') := by
  intro bytes hbytes
  cases bytes with
  | nil => rfl
  | cons b bytes => exact hf b bytes (Nat.lt_of_succ_lt_succ hbytes)

/-- So there are behind a number. -/
theorem AgreeBelow.after_u16 {f f' : UInt16 → Reader β} (hf : ∀ k, AgreeBelow n (f k) (f' k)) :
    AgreeBelow (n + 1) (u16 >>= f) (u16 >>= f') := by
  intro bytes hbytes
  show (u16 bytes >>= fun x => f x.1 x.2) = (u16 bytes >>= fun x => f' x.1 x.2)
  cases hrun : u16 bytes with
  | error e => rfl
  | ok x =>
    have hlength := congrArg List.length (canonical_u16 hrun)
    rw [List.length_append, encodeU16, List.length_cons] at hlength
    exact hf x.1 x.2 (by omega)

theorem AgreeBelow.many (hr : AgreeBelow n r r') (hs : Sequential r) (count : Nat) :
    AgreeBelow n (Reader.many count r) (Reader.many count r') := by
  unfold Reader.many
  generalize ([] : List α) = done
  induction count generalizing done with
  | zero => exact .refl n _
  | succ count ih => exact hr.bind hs (fun a => ih (a :: done))

end Agreement

variable {n : Nat} {inner inner' : Reader Unit}

theorem sequential_read (hinner : Sequential inner) : Sequential (read inner) := by
  refine sequential_bind sequential_u16 (fun type => ?_)
  refine sequential_bind sequential_u16 (fun count => ?_)
  refine sequential_bind (sequential_manyAfter ?_ count.toNat []) (fun _ => sequential_pure type)
  exact sequential_bind sequential_u16 (fun _ => hinner)

theorem sequential_valueAfter (hinner : Sequential inner) (letter : Char) :
    Sequential (valueAfter inner letter) := by
  have hunit : ∀ {α : Type}, α → Sequential (pure () : Reader Unit) := fun _ => sequential_pure ()
  unfold valueAfter
  split_ifs
  · exact sequential_bind sequential_u16 hunit
  · exact sequential_bind sequential_u16 (fun _ => sequential_bind sequential_u16 hunit)
  · exact sequential_bind (sequential_read hinner) hunit
  · exact sequential_bind sequential_u16 (fun count =>
      sequential_bind (sequential_manyAfter hinner count.toNat []) hunit)
  · exact sequential_throw malformed

theorem sequential_skipValue (depth : Nat) : Sequential (skipValue depth) := by
  induction depth with
  | zero => exact sequential_throw malformed
  | succ depth ih => exact sequential_bind sequential_u8 (fun b => sequential_valueAfter ih _)

/-- In front of the values of an annotation stand its type and their number. -/
theorem AgreeBelow.read (h : AgreeBelow n inner inner') (hs : Sequential inner) :
    AgreeBelow (n + 1) (read inner) (read inner') := by
  refine AgreeBelow.after_u16 (fun type => ?_)
  refine (AgreeBelow.refl n u16).bind sequential_u16 (fun count => ?_)
  have hnamed : Sequential (do let _ ← u16; inner) := sequential_bind sequential_u16 (fun _ => hs)
  have hvalue : AgreeBelow n (do let _ ← u16; inner) (do let _ ← u16; inner') :=
    (AgreeBelow.refl n u16).bind sequential_u16 (fun _ => h)
  exact (hvalue.many hnamed count.toNat).bind (sequential_manyAfter hnamed count.toNat [])
    (fun _ => .refl n _)

theorem AgreeBelow.valueAfter (h : AgreeBelow n inner inner') (hs : Sequential inner)
    (letter : Char) : AgreeBelow n (valueAfter inner letter) (valueAfter inner' letter) := by
  unfold Annotation.valueAfter
  split_ifs
  · exact .refl n _
  · exact .refl n _
  · exact ((h.read hs).mono (Nat.le_succ n)).bind (sequential_read hs) (fun _ => .refl n _)
  · exact (AgreeBelow.refl n u16).bind sequential_u16 (fun count =>
      (h.many hs count.toNat).bind (sequential_manyAfter hs count.toNat []) (fun _ => .refl n _))
  · exact .refl n _

/-- The values inside stand behind the letter, so they have fewer bytes. -/
theorem AgreeBelow.valueWith (h : AgreeBelow n inner inner') (hs : Sequential inner) :
    AgreeBelow (n + 1) (valueWith inner) (valueWith inner') :=
  AgreeBelow.after_u8 (fun b => h.valueAfter hs (Char.ofUInt8 b))

/-- A bound above the number of bytes is never felt. -/
theorem skipValue_eq_of_lt {depth depth' : Nat} {bytes : Bytes} (h : bytes.length < depth)
    (h' : bytes.length < depth') : skipValue depth bytes = skipValue depth' bytes := by
  induction depth generalizing depth' bytes with
  | zero => omega
  | succ depth ih =>
    cases depth' with
    | zero => omega
    | succ depth' =>
      have hinner : AgreeBelow bytes.length (skipValue depth) (skipValue depth') :=
        fun rest hrest => ih (by omega) (by omega)
      exact hinner.valueWith (sequential_skipValue depth) bytes (Nat.lt_succ_self _)

theorem agreeBelow_skipValue (depth : Nat) : AgreeBelow depth (skipValue depth) value :=
  fun _ hbytes => skipValue_eq_of_lt hbytes (Nat.lt_succ_self _)

/-- The reader satisfies the equation that its bounded versions approximate. -/
theorem value_eq : value = valueWith value := by
  funext bytes
  exact (agreeBelow_skipValue bytes.length).valueWith (sequential_skipValue bytes.length) bytes
    (Nat.lt_succ_self _)

/-- The bound that annotations are read with is large enough. -/
theorem read_skipValue (bytes : Bytes) :
    read (skipValue bytes.length) bytes = read value bytes :=
  (agreeBelow_skipValue bytes.length).read (sequential_skipValue bytes.length) bytes
    (Nat.lt_succ_self _)

/-- The reader takes what it needs, like the bounded ones: bytes that are added or taken away
    at the end make it another bounded one, but a bound that is large enough for both serves
    as well. -/
theorem sequential_value : Sequential value := by
  intro bytes a rest h
  -- A bound above the lengths of both texts serves for both.
  have hlarge : ∀ other : Bytes, ∃ depth, skipValue depth bytes = .ok (a, rest) ∧
      skipValue depth other = value other := by
    intro other
    refine ⟨bytes.length + other.length + 1, ?_, ?_⟩
    · rw [← h]
      exact skipValue_eq_of_lt (by omega) (Nat.lt_succ_self _)
    · exact skipValue_eq_of_lt (by omega) (Nat.lt_succ_self _)
  obtain ⟨front, rfl, -⟩ := sequential_skipValue _ h
  -- The part that is taken does not depend on the bound.
  have hfront : ∀ {depth : Nat}, skipValue depth (front ++ rest) = .ok (a, rest) →
      Exhausts (skipValue depth) front a := by
    intro depth hdepth
    obtain ⟨front', heq, hexhausts⟩ := sequential_skipValue depth hdepth
    rwa [List.append_cancel_right heq]
  refine ⟨front, rfl, ?_, ?_⟩
  · intro more
    obtain ⟨depth, hdepth, hother⟩ := hlarge (front ++ more)
    rw [← hother]
    exact (hfront hdepth).reads more
  · intro short hshort hproper
    obtain ⟨depth, hdepth, hother⟩ := hlarge short
    rw [← hother]
    exact (hfront hdepth).starves short hshort hproper

/-- It is the only reader that does: by the equation, what it makes of some bytes hangs on
    what it makes of fewer bytes. -/
theorem eq_value_of_eq {r : Reader Unit} (h : r = valueWith r) : r = value := by
  suffices hagree : ∀ n, AgreeBelow n value r from
    funext (fun bytes => (hagree (bytes.length + 1) bytes (Nat.lt_succ_self _)).symm)
  intro n
  induction n with
  | zero => exact fun bytes hbytes => absurd hbytes (Nat.not_lt_zero _)
  | succ n ih =>
    rw [value_eq, h]
    exact ih.valueWith sequential_value

/-! ## Written annotations are read -/

/-- Elements in a row, of which only their number is kept. -/
theorem reads_many_units {α : Type} {r : Reader Unit} {encode : α → Bytes} {l : List α}
    (hr : ∀ a ∈ l, Reads r (encode a) ()) :
    Reads (Reader.many l.length r) (l.flatMap encode) (l.map (fun _ => ())) := by
  suffices h : ∀ done : List Unit, Reads (Reader.manyAfter r l.length done) (l.flatMap encode)
      (done.reverse ++ l.map (fun _ => ())) from h []
  intro done
  induction l generalizing done with
  | nil =>
    rw [List.map_nil, List.append_nil]
    exact Reads.pure _
  | cons a l ih =>
    have hl := ih (fun b hb => hr b (List.mem_cons_of_mem a hb)) (() :: done)
    rw [List.reverse_cons, List.append_assoc, List.singleton_append] at hl
    rw [List.flatMap_cons]
    exact (hr a List.mem_cons_self).bind hl

/-- An annotation whose values are skipped is skipped. -/
theorem reads_read {elements : List (UInt16 × ElementValue)} (type : UInt16)
    (hcount : elements.length ≤ 65535)
    (heach : ∀ e ∈ elements, Reads inner e.2.encode ()) :
    Reads (read inner) (encodeU16 type ++ (encodeU16 (UInt16.ofNat elements.length) ++
      elements.flatMap (fun e => encodeU16 e.1 ++ e.2.encode))) type := by
  refine (reads_u16 type).bind ((reads_u16 _).bind ?_)
  rw [toNat_count16 hcount]
  exact (reads_many_units (fun e he => (reads_u16 e.1).bind (heach e he))).bind_pure

/-- A value is its letter and what follows. -/
theorem reads_value {letter : Char} {bytes : Bytes} (hletter : Char.ofUInt8 letter.toUInt8 = letter)
    (h : Reads (valueAfter value letter) bytes ()) :
    Reads value (letter.toUInt8 :: bytes) () := by
  have hafter : Reads (valueAfter value (Char.ofUInt8 letter.toUInt8)) bytes () := by
    rwa [hletter]
  rw [value_eq]
  exact (reads_u8 letter.toUInt8).bind hafter

theorem reads_encode {v : ElementValue} (hv : v.Encodable) : Reads value v.encode () := by
  induction hv with
  | indexed kind index =>
    rw [ElementValue.encode]
    -- The letter of the kind tells that an index follows.
    refine reads_value (by cases kind <;> rfl) ?_
    have hletter : constantLetters.contains kind.letter = true := by cases kind <;> rfl
    rw [valueAfter, if_pos hletter]
    exact (reads_u16 index).bind_pure
  | enumConstant type name =>
    rw [ElementValue.encode]
    exact reads_value rfl ((reads_u16 type).bind (reads_u16 name).bind_pure)
  | nested count _ ih =>
    rw [ElementValue.encode]
    exact reads_value rfl (reads_read _ count ih).bind_pure
  | array count _ ih =>
    rw [ElementValue.encode]
    refine reads_value rfl ((reads_u16 _).bind ?_)
    rw [toNat_count16 count]
    exact (reads_many_units ih).bind_pure

/-- A written annotation is skipped to its last byte, and its type is what is kept. -/
theorem reads_tree {a : AnnotationTree} (ha : a.Encodable) :
    Reads (read value) a.encode a.type :=
  reads_read a.type ha.count (fun e he => reads_encode (ha.each e he))

/-! ## Caller sensitivity -/

theorem anyCallerSensitive_encode {file : ClassFile} {annotations : List AnnotationTree}
    (hencodable : ∀ a ∈ annotations, a.Encodable)
    (htypes : ∀ a ∈ annotations, ∃ type, file.utf8 a.type = .ok type) (trailing : Bytes) :
    ∃ answer, anyCallerSensitive file annotations.length
        (annotations.flatMap AnnotationTree.encode ++ trailing) = .ok answer ∧
      (answer = true ↔ ∃ a ∈ annotations, file.utf8 a.type = .ok callerSensitive) := by
  induction annotations with
  | nil => exact ⟨false, rfl, by simp⟩
  | cons a annotations ih =>
    obtain ⟨type, htype⟩ := htypes a List.mem_cons_self
    have hread := reads_tree (hencodable a List.mem_cons_self)
      (annotations.flatMap AnnotationTree.encode ++ trailing)
    rw [List.flatMap_cons, List.append_assoc, List.length_cons, anyCallerSensitive,
      read_skipValue, hread]
    show ∃ answer, (file.utf8 a.type >>= fun text =>
      if text = callerSensitive then Except.ok true else anyCallerSensitive file _ _) = _ ∧ _
    rw [htype]
    show ∃ answer, (if type = callerSensitive then Except.ok true
      else anyCallerSensitive file _ _) = _ ∧ _
    by_cases hmark : type = callerSensitive
    · -- The search ends here, whatever follows.
      rw [if_pos hmark]
      exact ⟨true, rfl, by simp [htype, hmark]⟩
    · rw [if_neg hmark]
      obtain ⟨answer, hanswer, hiff⟩ := ih
        (fun b hb => hencodable b (List.mem_cons_of_mem a hb))
        (fun b hb => htypes b (List.mem_cons_of_mem a hb))
      exact ⟨answer, hanswer, by simp [hiff, htype, hmark]⟩

/-- Other attributes do not count. -/
theorem isCallerSensitive_append {file : ClassFile} {others : List Attribute}
    (hothers : ∀ a ∈ others, ∃ name, file.utf8 a.nameIndex = .ok name ∧ name ≠ attributeName)
    (attributes : List Attribute) :
    isCallerSensitive file (others ++ attributes) = isCallerSensitive file attributes := by
  induction others with
  | nil => rfl
  | cons a others ih =>
    obtain ⟨name, hname, hne⟩ := hothers a List.mem_cons_self
    rw [List.cons_append, isCallerSensitive, hname]
    show (if name = attributeName then _ else isCallerSensitive file (others ++ attributes)) = _
    rw [if_neg hne]
    exact ih (fun b hb => hothers b (List.mem_cons_of_mem a hb))

theorem isCallerSensitive_encode {file : ClassFile} {visible : Attribute}
    {annotations : List AnnotationTree} {trailing : Bytes}
    (hname : file.utf8 visible.nameIndex = .ok attributeName)
    (hinfo : visible.info = encodeCounted AnnotationTree.encode annotations ++ trailing)
    (hcount : annotations.length ≤ 65535) (hencodable : ∀ a ∈ annotations, a.Encodable)
    (htypes : ∀ a ∈ annotations, ∃ type, file.utf8 a.type = .ok type)
    {after : List Attribute} (hafter : isCallerSensitive file after = .ok false) :
    ∃ answer, isCallerSensitive file (visible :: after) = .ok answer ∧
      (answer = true ↔ ∃ a ∈ annotations, file.utf8 a.type = .ok callerSensitive) := by
  obtain ⟨answer, hanswer, hiff⟩ := anyCallerSensitive_encode hencodable htypes trailing
  refine ⟨answer, ?_, hiff⟩
  have hread : u16 visible.info = .ok (UInt16.ofNat annotations.length,
      annotations.flatMap AnnotationTree.encode ++ trailing) := by
    rw [hinfo, encodeCounted, List.append_assoc]
    exact reads_u16 _ _
  simp only [isCallerSensitive, hname, hread, bind, Except.bind, if_true, toNat_count16 hcount,
    hanswer]
  cases answer with
  | true => rfl
  | false => exact hafter

/-- An error of the result satisfies `P`. -/
def Blames {α : Type} (P : FormatError → Prop) (result : Except FormatError α) : Prop :=
  ∀ e, result = .error e → P e

theorem blames_ok {α : Type} {P : FormatError → Prop} (a : α) : Blames P (.ok a) :=
  fun _ h => by cases h

theorem blames_error {α : Type} {P : FormatError → Prop} {e : FormatError} (h : P e) :
    Blames P (.error e : Except FormatError α) :=
  fun _ he => by cases he; exact h

theorem blames_bind {α β : Type} {P : FormatError → Prop} {x : Except FormatError α}
    {f : α → Except FormatError β} (hx : Blames P x) (hf : ∀ a, Blames P (f a)) :
    Blames P (x >>= f) := by
  cases x with
  | ok a => exact hf a
  | error e => exact blames_error (hx e rfl)

/-- An attribute is not well formed, or an index leads to no text. -/
def Misread (e : FormatError) : Prop :=
  e = malformed ∨ ∃ index, e = .constantPool index

theorem blames_utf8 (file : ClassFile) (index : UInt16) : Blames Misread (file.utf8 index) := by
  have hindex : Misread (.constantPool index) := .inr ⟨index, rfl⟩
  refine blames_bind ?_ (fun constant => ?_)
  · unfold entry
    split
    · exact blames_error hindex
    · split
      · exact blames_ok _
      · exact blames_error hindex
  · split
    · exact blames_ok _
    · exact blames_error hindex

theorem blames_anyCallerSensitive (file : ClassFile) (n : Nat) (bytes : Bytes) :
    Blames Misread (anyCallerSensitive file n bytes) := by
  induction n generalizing bytes with
  | zero => exact blames_ok false
  | succ n ih =>
    unfold anyCallerSensitive
    split
    · exact blames_error (.inl rfl)
    · refine blames_bind (blames_utf8 file _) (fun text => ?_)
      split
      · exact blames_ok true
      · exact ih _

theorem blames_isCallerSensitive (file : ClassFile) (attributes : List Attribute) :
    Blames Misread (isCallerSensitive file attributes) := by
  induction attributes with
  | nil => exact blames_ok false
  | cons a rest ih =>
    refine blames_bind (blames_utf8 file a.nameIndex) (fun name => ?_)
    split
    · split
      · exact blames_error (.inl rfl)
      · refine blames_bind (blames_anyCallerSensitive file _ _) (fun found => ?_)
        split
        · exact blames_ok true
        · exact ih
    · exact ih

/-- A method whose only attribute of annotations holds the bytes of `annotations`, whatever
    follows them, is caller sensitive exactly if one of these annotations has the type that
    marks it; those inside others do not count.

    On any bytes, the reader of values ends: the equation that the kinds of values give, with
    no bound in it, has one solution, and annotations are read with it. An annotation that is
    read stands in front of the rest, no byte behind it was looked at, and without one of its
    own bytes it is not read. What goes wrong is a malformed attribute or a bad index. -/
theorem callerSensitive_iff_annotated {file : ClassFile} {before after : List Attribute}
    {visible : Attribute} {annotations : List AnnotationTree} {trailing : Bytes}
    (hothers : ∀ a ∈ before ++ after,
      ∃ name, file.utf8 a.nameIndex = .ok name ∧ name ≠ attributeName)
    (hname : file.utf8 visible.nameIndex = .ok attributeName)
    (hinfo : visible.info = encodeCounted AnnotationTree.encode annotations ++ trailing)
    (hcount : annotations.length ≤ 65535) (hencodable : ∀ a ∈ annotations, a.Encodable)
    (htypes : ∀ a ∈ annotations, ∃ type, file.utf8 a.type = .ok type) :
    (∃ answer, isCallerSensitive file (before ++ visible :: after) = .ok answer ∧
      (answer = true ↔ ∃ a ∈ annotations, file.utf8 a.type = .ok callerSensitive)) ∧
    (∀ r, r = valueWith r ↔ r = value) ∧
    (∀ bytes, read (skipValue bytes.length) bytes = read value bytes) ∧
    (∀ bytes type rest, read value bytes = .ok (type, rest) →
      ∃ front, bytes = front ++ rest ∧ Exhausts (read value) front type) ∧
    (∀ attributes e, isCallerSensitive file attributes = .error e →
      e = malformed ∨ ∃ index, e = .constantPool index) := by
  have hafter : isCallerSensitive file after = .ok false := by
    rw [← List.append_nil after]
    exact isCallerSensitive_append (fun a ha => hothers a (List.mem_append_right before ha)) []
  refine ⟨?_, fun r => ⟨eq_value_of_eq, fun h => ?_⟩, read_skipValue, ?_,
    fun attributes => blames_isCallerSensitive file attributes⟩
  · rw [isCallerSensitive_append (fun a ha => hothers a (List.mem_append_left after ha))]
    exact isCallerSensitive_encode hname hinfo hcount hencodable htypes hafter
  · rw [h]
    exact value_eq
  · exact fun bytes type rest h => sequential_read sequential_value h

/-- The name of the attribute, the marking type and another one. -/
def annotatedFile : ClassFile :=
  { sampleFile with pool := #[.utf8 attributeName, .utf8 callerSensitive, .utf8 "LOther;"] }

/-- An annotation of the other type that holds one of the marking type, in an array. -/
def outer : AnnotationTree :=
  { type := 3
    elements :=
      [(3, .array [.nested 2 [(1, .indexed .int 5)], .enumConstant 1 2]),
       (1, .indexed .classInfo 3)] }

theorem outer_encodable : outer.Encodable where
  count := by decide
  each := by
    intro e he
    -- The elements of the sample, from the outside in.
    have hcases : e = (3, .array [.nested 2 [(1, .indexed .int 5)], .enumConstant 1 2]) ∨
        e = (1, .indexed .classInfo 3) := by simpa [outer] using he
    rcases hcases with rfl | rfl
    · refine .array (by decide) (fun v hv => ?_)
      have hcases : v = .nested 2 [(1, .indexed .int 5)] ∨ v = .enumConstant 1 2 := by
        simpa using hv
      rcases hcases with rfl | rfl
      · refine .nested (by decide) (fun e he => ?_)
        rw [List.mem_singleton.mp he]
        exact .indexed _ _
      · exact .enumConstant _ _
    · exact .indexed _ _

/-- The attribute with the given annotations and two bytes too many. -/
def annotated (annotations : List AnnotationTree) : Attribute :=
  { nameIndex := 1, info := encodeCounted AnnotationTree.encode annotations ++ [0, 7] }

/-- An annotation inside another one does not mark the method; next to it, it does. -/
theorem nested_annotation_does_not_count :
    isCallerSensitive annotatedFile [⟨3, [1, 2]⟩, annotated [outer]] = .ok false ∧
      isCallerSensitive annotatedFile [⟨3, [1, 2]⟩, annotated [outer, ⟨2, []⟩]] = .ok true := by
  have houter : annotatedFile.utf8 outer.type = .ok "LOther;" := rfl
  have hmark : annotatedFile.utf8 2 = .ok callerSensitive := rfl
  have hother : "LOther;" ≠ callerSensitive := by decide
  have hencodable : AnnotationTree.Encodable ⟨2, []⟩ := ⟨by decide, fun e he => by cases he⟩
  have hothers : ∀ a ∈ [(⟨3, [1, 2]⟩ : Attribute)] ++ [],
      ∃ name, annotatedFile.utf8 a.nameIndex = .ok name ∧ name ≠ attributeName := by
    intro a ha
    rw [List.append_nil, List.mem_singleton] at ha
    exact ⟨"LOther;", by rw [ha]; rfl, by decide⟩
  constructor
  · obtain ⟨⟨answer, hrun, hiff⟩, -⟩ := callerSensitive_iff_annotated hothers
      (rfl : annotatedFile.utf8 (annotated [outer]).nameIndex = _) rfl (by decide)
      (by simpa using outer_encodable) (by simpa using ⟨_, houter⟩)
    -- The type of the outer annotation is another one, and the inner one is not looked at.
    obtain rfl : answer = false := by simpa [houter, hother] using hiff
    exact hrun
  · obtain ⟨⟨answer, hrun, hiff⟩, -⟩ := callerSensitive_iff_annotated hothers
      (rfl : annotatedFile.utf8 (annotated [outer, ⟨2, []⟩]).nameIndex = _) rfl (by decide)
      (by simpa using ⟨outer_encodable, hencodable⟩) (by simpa using ⟨⟨_, houter⟩, _, hmark⟩)
    obtain rfl : answer = true := by simpa [houter, hmark] using hiff
    exact hrun

end Annotation

end Linkage.ClassFile
