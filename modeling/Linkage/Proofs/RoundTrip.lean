import Mathlib.Algebra.Group.Nat.Defs
import Linkage.ClassFile.Encoding

/-! # Writing and reading back

    `ClassFile.parse` undoes `ClassFile.encode` on every file that the format can
    hold.

    * `Reads r bytes a`: the reader takes exactly `bytes` off the front of its input,
      whatever follows, and returns `a`. Readers compose, and so do the bytes.
    * One lemma for each part of a file says that its reader reads its encoding.
    * `ClassFile.Encodable` is what the format can hold: lists whose lengths fit
      their counts, and a pool with a hole behind every wide constant. -/

namespace Linkage

open Text (Bytes)

/-! ## What the format can hold -/

/-- The text of a constant fits its length. -/
def Constant.Encodable : Constant → Prop
  | .utf8 text => (Text.encodeUtf8 text).length ≤ 65535
  | _ => True

instance : DecidablePred Constant.Encodable
  | .utf8 text => inferInstanceAs (Decidable ((Text.encodeUtf8 text).length ≤ 65535))
  | .integer _ | .float _ | .long _ _ | .double _ _ | .classRef _ | .stringRef _
  | .fieldref _ _ | .methodref _ _ | .interfaceMethodref _ _ | .nameAndType _ _
  | .methodHandle _ _ | .methodType _ | .dynamic _ _ | .invokeDynamic _ _ | .moduleName _
  | .packageName _ | .hole => .isTrue trivial

/-- A hole stands behind every wide constant, and nowhere else. -/
inductive PoolShape : List Constant → Prop where
  | nil : PoolShape []
  | narrow {c : Constant} {rest : List Constant} (hwide : c.isWide = false) (hhole : c ≠ .hole)
      (shape : PoolShape rest) : PoolShape (c :: rest)
  | wide {c : Constant} {rest : List Constant} (hwide : c.isWide = true)
      (shape : PoolShape rest) : PoolShape (c :: .hole :: rest)

/-- The bytes of an attribute fit their length. -/
def Attribute.Encodable (a : Attribute) : Prop :=
  a.info.length < 2 ^ 32

instance : DecidablePred Attribute.Encodable :=
  fun a => inferInstanceAs (Decidable (a.info.length < 2 ^ 32))

structure Member.Encodable (m : Member) : Prop where
  count : m.attributes.length ≤ 65535
  attributes : ∀ a ∈ m.attributes, a.Encodable

/-- A table of bootstrap methods that fits its counts. -/
structure BootstrapTable.Encodable (entries : List BootstrapEntry) : Prop where
  count : entries.length ≤ 65535
  arguments : ∀ e ∈ entries, e.arguments.length ≤ 65535

namespace ClassFile

/-- The attributes of the class with the name `BootstrapMethods`. -/
def bootstrapAttributes (file : ClassFile) (attributes : List Attribute) : List Attribute :=
  attributes.filter (fun a => (file.utf8 a.nameIndex).toOption = some bootstrapAttribute)

/-- The class files that can be written down. -/
structure Encodable (file : ClassFile) : Prop where
  slots : file.pool.size ≤ 65534
  shape : PoolShape file.pool.toList
  constants : ∀ c ∈ file.pool.toList, c.Encodable
  interfaces : file.interfaces.length ≤ 65535
  fieldCount : file.fields.length ≤ 65535
  fields : ∀ m ∈ file.fields, m.Encodable
  methodCount : file.methods.length ≤ 65535
  methods : ∀ m ∈ file.methods, m.Encodable
  attributeCount : file.attributes.length ≤ 65535
  attributes : ∀ a ∈ file.attributes, a.Encodable
  /-- The attributes of the class have names. -/
  named : ∀ a ∈ file.attributes, ∃ name, file.utf8 a.nameIndex = .ok name
  /-- Every `BootstrapMethods` attribute holds a table. -/
  tables : ∀ a ∈ file.bootstrapAttributes file.attributes,
    ∃ entries, BootstrapTable.Encodable entries ∧ a.info = encodeBootstrapTable entries
  /-- The table of the file is the one in the last of them. -/
  last : ∀ a, (file.bootstrapAttributes file.attributes).getLast? = some a →
    BootstrapTable.Encodable file.bootstrapMethods ∧
      a.info = encodeBootstrapTable file.bootstrapMethods
  absent : file.bootstrapAttributes file.attributes = [] → file.bootstrapMethods = []

end ClassFile

/-! ## Readers and the bytes they take -/

namespace ClassFile

/-- The reader takes these bytes, whatever follows them, and returns this value. -/
def Reads {α : Type} (r : Reader α) (bytes : Bytes) (a : α) : Prop :=
  ∀ rest : Bytes, r (bytes ++ rest) = .ok (a, rest)

namespace Reads

variable {α β : Type}

theorem pure (a : α) : Reads (Pure.pure a) [] a := fun _ => rfl

theorem bind {r : Reader α} {f : α → Reader β} {front back : Bytes} {a : α} {b : β}
    (hr : Reads r front a) (hf : Reads (f a) back b) : Reads (r >>= f) (front ++ back) b := by
  intro rest
  rw [List.append_assoc]
  show (r (front ++ (back ++ rest)) >>= fun x => f x.1 x.2) = _
  rw [hr (back ++ rest)]
  exact hf rest

/-- What follows takes no bytes. -/
theorem bind_nil {r : Reader α} {f : α → Reader β} {bytes : Bytes} {a : α} {b : β}
    (hr : Reads r bytes a) (hf : Reads (f a) [] b) : Reads (r >>= f) bytes b := by
  rw [← List.append_nil bytes]
  exact hr.bind hf

/-- The last reader of a sequence. -/
theorem bind_pure {r : Reader α} {f : α → β} {bytes : Bytes} {a : α} (hr : Reads r bytes a) :
    Reads (r >>= fun x => Pure.pure (f x)) bytes (f a) :=
  Reads.bind_nil (f := fun x => Pure.pure (f x)) hr (Reads.pure (f a))

theorem map {r : Reader α} {bytes : Bytes} {a : α} (f : α → β) (hr : Reads r bytes a) :
    Reads (f <$> r) bytes (f a) := by
  rw [map_eq_pure_bind]
  exact hr.bind_pure

end Reads

/-! ## Numbers and lists -/

theorem reads_u8 (b : UInt8) : Reads Reader.u8 [b] b := fun _ => rfl

theorem reads_u16 (n : UInt16) : Reads Reader.u16 (encodeU16 n) n := by
  have hn : n.toNat < 65536 := n.toNat_lt
  have hvalue : UInt16.ofNat ((UInt8.ofNat (n.toNat / 256)).toNat * 256 +
      (UInt8.ofNat (n.toNat % 256)).toNat) = n := by
    apply UInt16.toNat_inj.mp
    simp only [UInt16.toNat_ofNat', UInt8.toNat_ofNat']
    omega
  have h : Reads Reader.u16 (encodeU16 n) (UInt16.ofNat
      ((UInt8.ofNat (n.toNat / 256)).toNat * 256 + (UInt8.ofNat (n.toNat % 256)).toNat)) :=
    Reads.bind (reads_u8 _) (Reads.bind_pure (reads_u8 _))
  rwa [hvalue] at h

theorem reads_u32 (n : UInt32) : Reads Reader.u32 (encodeU32 n) n := by
  have hn : n.toNat < 4294967296 := n.toNat_lt
  have hvalue : UInt32.ofNat ((UInt16.ofNat (n.toNat / 65536)).toNat * 65536 +
      (UInt16.ofNat (n.toNat % 65536)).toNat) = n := by
    apply UInt32.toNat_inj.mp
    simp only [UInt32.toNat_ofNat', UInt16.toNat_ofNat']
    omega
  have h : Reads Reader.u32 (encodeU32 n) (UInt32.ofNat
      ((UInt16.ofNat (n.toNat / 65536)).toNat * 65536 +
        (UInt16.ofNat (n.toNat % 65536)).toNat)) :=
    Reads.bind (reads_u16 _) (Reads.bind_pure (reads_u16 _))
  rwa [hvalue] at h

theorem reads_take (bytes : Bytes) : Reads (Reader.take bytes.length) bytes bytes := by
  intro rest
  simp [Reader.take]

/-- A count that fits is the number of elements. -/
theorem toNat_count16 {n : Nat} (hn : n ≤ 65535) : (UInt16.ofNat n).toNat = n := by
  rw [UInt16.toNat_ofNat']
  omega

theorem toNat_count32 {n : Nat} (hn : n < 2 ^ 32) : (UInt32.ofNat n).toNat = n := by
  rw [UInt32.toNat_ofNat']
  omega

theorem reads_manyAfter {α : Type} {r : Reader α} {encode : α → Bytes} (l done : List α)
    (hr : ∀ a ∈ l, Reads r (encode a) a) :
    Reads (Reader.manyAfter r l.length done) (l.flatMap encode) (done.reverse ++ l) := by
  induction l generalizing done with
  | nil =>
    rw [List.append_nil]
    exact Reads.pure _
  | cons a l ih =>
    have hl := ih (a :: done) (fun b hb => hr b (List.mem_cons_of_mem a hb))
    rw [List.reverse_cons, List.append_assoc, List.singleton_append] at hl
    rw [List.flatMap_cons]
    exact (hr a List.mem_cons_self).bind hl

theorem reads_counted {α : Type} {r : Reader α} {encode : α → Bytes} {l : List α}
    (hlength : l.length ≤ 65535) (hr : ∀ a ∈ l, Reads r (encode a) a) :
    Reads (Reader.counted r) (encodeCounted encode l) l := by
  apply (reads_u16 _).bind
  rw [toNat_count16 hlength]
  exact reads_manyAfter l [] hr

/-! ## Constants -/

theorem decodeUtf8_encodeUtf8 (text : String) :
    Text.decodeUtf8 (Text.encodeUtf8 text) = .ok text := by
  have h : String.fromUTF8? text.toUTF8 = some text := by
    rw [String.fromUTF8?, String.toUTF8_eq_toByteArray, dif_pos text.isValidUTF8]
    rfl
  unfold Text.decodeUtf8 Text.encodeUtf8
  rw [Array.toArray_toList, h]

theorem reads_utf8 {text : String} (hlength : (Text.encodeUtf8 text).length ≤ 65535) :
    Reads readUtf8 (Constant.encodeBody (.utf8 text)) text := by
  apply (reads_u16 _).bind
  rw [toNat_count16 hlength]
  refine Reads.bind_nil (reads_take (Text.encodeUtf8 text)) ?_
  rw [decodeUtf8_encodeUtf8]
  exact Reads.pure text

theorem reads_pair {α β : Type} {r : Reader α} {encode : α → Bytes}
    (hr : ∀ a, Reads r (encode a) a) (make : α → α → β) (a b : α) :
    Reads (readPair r make) (encode a ++ encode b) (make a b) :=
  (hr a).bind ((hr b).bind_pure)

theorem ofCode?_code (tag : ConstantTag) : ConstantTag.ofCode? tag.code = some tag := by
  cases tag <;> rfl

/-- The body of a constant is read back, kind by kind. -/
theorem reads_body {c : Constant} {tag : ConstantTag} (hc : c.Encodable)
    (htag : c.tag? = some tag) : Reads (readBody tag) c.encodeBody c := by
  cases c with
  | utf8 text => cases htag; exact (reads_utf8 hc).map _
  | integer bits => cases htag; exact (reads_u32 bits).map _
  | float bits => cases htag; exact (reads_u32 bits).map _
  | long high low => cases htag; exact reads_pair reads_u32 _ high low
  | double high low => cases htag; exact reads_pair reads_u32 _ high low
  | classRef name => cases htag; exact (reads_u16 name).map _
  | stringRef value => cases htag; exact (reads_u16 value).map _
  | fieldref owner nt => cases htag; exact reads_pair reads_u16 _ owner nt
  | methodref owner nt => cases htag; exact reads_pair reads_u16 _ owner nt
  | interfaceMethodref owner nt => cases htag; exact reads_pair reads_u16 _ owner nt
  | nameAndType name descriptor => cases htag; exact reads_pair reads_u16 _ name descriptor
  | methodHandle kind reference =>
    cases htag
    exact Reads.bind (reads_u8 kind) (reads_u16 reference).bind_pure
  | methodType descriptor => cases htag; exact (reads_u16 descriptor).map _
  | dynamic bootstrap nt => cases htag; exact reads_pair reads_u16 _ bootstrap nt
  | invokeDynamic bootstrap nt => cases htag; exact reads_pair reads_u16 _ bootstrap nt
  | moduleName name => cases htag; exact (reads_u16 name).map _
  | packageName name => cases htag; exact (reads_u16 name).map _
  | hole => cases htag

theorem reads_constant {c : Constant} (hc : c.Encodable) (hhole : c ≠ .hole) :
    Reads readConstant c.encode c := by
  cases htag : c.tag? with
  | none => cases c <;> simp_all [Constant.tag?]
  | some tag =>
    have hencode : c.encode = [tag.code] ++ c.encodeBody := by
      simp [Constant.encode, htag]
    rw [hencode]
    refine Reads.bind (reads_u8 tag.code) ?_
    rw [ofCode?_code]
    exact reads_body hc htag

/-- A pool is read back slot by slot. The induction is on the shape of the pool: a
    wide constant and its hole are two slots but one encoding. -/
theorem reads_slots {pool : List Constant} (shape : PoolShape pool)
    (hpool : ∀ c ∈ pool, c.Encodable) (done : List Constant) :
    Reads (readSlots pool.length false done) (pool.flatMap Constant.encode)
      (done.reverse ++ pool) := by
  induction shape generalizing done with
  | nil =>
    rw [List.append_nil]
    exact Reads.pure _
  | @narrow c rest hwide hhole _ ih =>
    have hrest := ih (fun d hd => hpool d (List.mem_cons_of_mem c hd)) (c :: done)
    rw [List.reverse_cons, List.append_assoc, List.singleton_append] at hrest
    rw [List.flatMap_cons]
    refine Reads.bind (reads_constant (hpool c List.mem_cons_self) hhole) ?_
    rw [hwide]
    exact hrest
  | @wide c rest hwide _ ih =>
    have hrest := ih (fun d hd => hpool d (List.mem_cons_of_mem c (List.mem_cons_of_mem _ hd)))
      (.hole :: c :: done)
    have hhole : c ≠ .hole := by
      intro he
      rw [he] at hwide
      cases hwide
    have hdone : (Constant.hole :: c :: done).reverse ++ rest =
        done.reverse ++ c :: .hole :: rest := by simp
    rw [hdone] at hrest
    rw [List.flatMap_cons, List.flatMap_cons]
    refine Reads.bind (reads_constant (hpool c List.mem_cons_self) hhole) ?_
    rw [hwide]
    -- The hole takes a slot and no bytes.
    exact hrest

theorem reads_pool {pool : List Constant} (hsize : pool.length ≤ 65534) (shape : PoolShape pool)
    (hpool : ∀ c ∈ pool, c.Encodable) :
    Reads readPool (encodeU16 (UInt16.ofNat (pool.length + 1)) ++ pool.flatMap Constant.encode)
      pool := by
  refine Reads.bind (reads_u16 _) ?_
  rw [toNat_count16 (by omega), Nat.add_sub_cancel]
  exact reads_slots shape hpool []

/-! ## Attributes and members -/

theorem reads_attribute {a : Attribute} (ha : a.Encodable) :
    Reads readAttribute a.encode a := by
  unfold Attribute.encode
  rw [List.append_assoc]
  refine Reads.bind (reads_u16 _) (Reads.bind (reads_u32 _) ?_)
  rw [toNat_count32 ha]
  exact (reads_take a.info).bind_pure

theorem reads_member {m : Member} (hm : m.Encodable) : Reads readMember m.encode m := by
  have hattributes := reads_counted hm.count (fun a ha => reads_attribute (hm.attributes a ha))
  unfold Member.encode
  simp only [List.append_assoc]
  exact Reads.bind (reads_u16 _) (Reads.bind (reads_u16 _) (Reads.bind (reads_u16 _)
    hattributes.bind_pure))

theorem reads_bootstrapTable {entries : List BootstrapEntry}
    (he : BootstrapTable.Encodable entries) :
    Reads (Reader.counted readBootstrapEntry) (encodeBootstrapTable entries) entries := by
  refine reads_counted he.count ?_
  intro e hmem
  have harguments := reads_counted (he.arguments e hmem) (fun n _ => reads_u16 n)
  exact Reads.bind (reads_u16 _) harguments.bind_pure

/-! ## The whole file -/

/-- All of a file but its bootstrap table is read back. -/
theorem reads_file {file : ClassFile} (hf : file.Encodable) :
    Reads readFile file.encode { file with bootstrapMethods := [] } := by
  have hpool : Reads readPool _ file.pool.toList :=
    reads_pool (by simpa using hf.slots) hf.shape hf.constants
  have hinterfaces := reads_counted hf.interfaces (fun n _ => reads_u16 n)
  have hfields := reads_counted hf.fieldCount (fun m hm => reads_member (hf.fields m hm))
  have hmethods := reads_counted hf.methodCount (fun m hm => reads_member (hf.methods m hm))
  have hattributes := reads_counted hf.attributeCount
    (fun a ha => reads_attribute (hf.attributes a ha))
  -- The parts of the file are written in the order in which they are read.
  unfold encode encodeWith
  simp only [List.append_assoc]
  refine Reads.bind (reads_u32 magic) ?_
  rw [if_neg (by simp)]
  refine Reads.bind (reads_u16 _) (Reads.bind (reads_u16 _) ?_)
  -- The count of the pool belongs to the pool, so the two are read together.
  rw [← Array.length_toList, ← List.append_assoc (encodeU16 (UInt16.ofNat _))]
  refine hpool.bind ?_
  exact Reads.bind (reads_u16 _) (Reads.bind (reads_u16 _) (Reads.bind (reads_u16 _)
    (hinterfaces.bind (hfields.bind (hmethods.bind hattributes.bind_pure)))))

theorem parseBootstrapTable_encode {entries : List BootstrapEntry}
    (he : BootstrapTable.Encodable entries) :
    parseBootstrapTable (encodeBootstrapTable entries) = .ok entries := by
  have h := reads_bootstrapTable he []
  rw [List.append_nil] at h
  rw [parseBootstrapTable, h]

/-- The last table among the attributes wins over the one found before. -/
theorem findBootstrapTable_eq {file : ClassFile} {attributes : List Attribute}
    {found entries : List BootstrapEntry}
    (named : ∀ a ∈ attributes, ∃ name, file.utf8 a.nameIndex = .ok name)
    (tables : ∀ a ∈ file.bootstrapAttributes attributes,
      ∃ es, BootstrapTable.Encodable es ∧ a.info = encodeBootstrapTable es)
    (last : ∀ a, (file.bootstrapAttributes attributes).getLast? = some a →
      BootstrapTable.Encodable entries ∧ a.info = encodeBootstrapTable entries)
    (absent : file.bootstrapAttributes attributes = [] → entries = found) :
    file.findBootstrapTable found attributes = .ok entries := by
  induction attributes generalizing found with
  | nil => rw [absent rfl]; rfl
  | cons a rest ih =>
    obtain ⟨name, hname⟩ := named a List.mem_cons_self
    have named' : ∀ b ∈ rest, ∃ name, file.utf8 b.nameIndex = .ok name :=
      fun b hb => named b (List.mem_cons_of_mem a hb)
    rw [findBootstrapTable, hname]
    show (if name = bootstrapAttribute then _ else _) = _
    by_cases hn : name = bootstrapAttribute
    · have hfilter : file.bootstrapAttributes (a :: rest) = a :: file.bootstrapAttributes rest := by
        simp [bootstrapAttributes, hname, hn, Except.toOption]
      rw [hfilter] at tables last absent
      rw [if_pos hn]
      obtain ⟨es, hes, hinfo⟩ := tables a List.mem_cons_self
      rw [hinfo, parseBootstrapTable_encode hes]
      refine ih named' (fun b hb => tables b (List.mem_cons_of_mem a hb)) ?_ ?_
      · intro b hb
        refine last b ?_
        rw [List.getLast?_cons, hb]
        rfl
      · intro hnone
        obtain ⟨he, hinfo'⟩ := last a (by rw [hnone]; rfl)
        -- Both are read from the bytes of this attribute.
        have h := parseBootstrapTable_encode he
        rw [← hinfo', hinfo, parseBootstrapTable_encode hes] at h
        exact (Except.ok.inj h).symm
    · have hfilter : file.bootstrapAttributes (a :: rest) = file.bootstrapAttributes rest := by
        simp [bootstrapAttributes, hname, hn, Except.toOption]
      rw [hfilter] at tables last absent
      rw [if_neg hn]
      exact ih named' tables last absent

/-- Reading gives back every file that can be written down. -/
theorem parse_encode {file : ClassFile} (hf : file.Encodable) : parse file.encode = .ok file := by
  have hread := reads_file hf []
  rw [List.append_nil] at hread
  -- Names are looked up in the pool, so they do not depend on the table.
  have htable : ({ file with bootstrapMethods := [] } : ClassFile).findBootstrapTable []
      file.attributes = .ok file.bootstrapMethods :=
    findBootstrapTable_eq hf.named hf.tables hf.last hf.absent
  unfold parse
  rw [hread]
  show (do
    let bootstrapMethods ← ({ file with bootstrapMethods := [] } : ClassFile).findBootstrapTable []
      file.attributes
    pure { file with bootstrapMethods } : Except FormatError ClassFile) = _
  rw [htable]
  rfl

/-- A file with wide constants, a member with attributes, and two bootstrap tables. -/
def sampleFile : ClassFile :=
  { minor := 0
    major := 61
    pool := #[.utf8 "BootstrapMethods", .long 1 0xFFFFFFFF, .hole, .methodHandle 6 5,
      .methodref 7 8, .utf8 "名前", .double 0x40080000 0, .hole]
    access := 0x21
    thisClass := 7
    superClass := 0
    interfaces := [3, 3]
    fields := [⟨2, 6, 9, [⟨6, [1, 2]⟩, ⟨0, []⟩]⟩]
    methods := []
    attributes := [⟨1, encodeBootstrapTable []⟩, ⟨6, [0xFF]⟩,
      ⟨1, encodeBootstrapTable [⟨4, [2, 6]⟩]⟩]
    bootstrapMethods := [⟨4, [2, 6]⟩] }

theorem sampleFile_bootstrapAttributes :
    sampleFile.bootstrapAttributes sampleFile.attributes =
      [⟨1, encodeBootstrapTable []⟩, ⟨1, encodeBootstrapTable [⟨4, [2, 6]⟩]⟩] := by
  decide +kernel

theorem sampleFile_encodable : sampleFile.Encodable where
  slots := by decide
  shape := .narrow rfl (by decide) (.wide rfl (.narrow rfl (by decide) (.narrow rfl (by decide)
    (.narrow rfl (by decide) (.wide rfl .nil)))))
  constants := by decide +kernel
  interfaces := by decide
  fieldCount := by decide
  fields := by
    intro m hm
    rw [List.mem_singleton.mp hm]
    exact ⟨by decide, by decide⟩
  methodCount := by decide
  methods := by
    intro m hm
    cases hm
  attributeCount := by decide
  attributes := by decide
  named := by
    intro a ha
    -- Each attribute is named by a text of the pool.
    simp only [sampleFile, List.mem_cons, List.not_mem_nil, or_false] at ha
    rcases ha with rfl | rfl | rfl <;> exact ⟨_, rfl⟩
  tables := by
    rw [sampleFile_bootstrapAttributes]
    intro a ha
    simp only [List.mem_cons, List.not_mem_nil, or_false] at ha
    rcases ha with rfl | rfl
    · exact ⟨_, ⟨by decide, by decide⟩, rfl⟩
    · exact ⟨_, ⟨by decide, by decide⟩, rfl⟩
  last := by
    rw [sampleFile_bootstrapAttributes]
    intro a ha
    cases ha
    exact ⟨⟨by decide, by decide⟩, rfl⟩
  absent := by
    rw [sampleFile_bootstrapAttributes]
    intro h
    cases h

theorem parse_encode_sampleFile :
    sampleFile.Encodable ∧ parse sampleFile.encode = .ok sampleFile :=
  ⟨sampleFile_encodable, parse_encode sampleFile_encodable⟩

end ClassFile

end Linkage
