import Linkage.Proofs.Mentions
import Linkage.Proofs.Operations
import Linkage.Proofs.RoundTrip

/-! # The bytes of an accepted file

    `ClassFile.parse` loses nothing of a file but the count in front of its pool: the
    bytes of an accepted file are the encoding of what has been read.

    * `Canonical r encode`: each value that the reader reads has one encoding, which is
      what the reader has taken off the front of its input. It is the converse of `Reads`.
    * One lemma for each part of a file says that its reader is canonical.
    * The count is not: the hole behind a wide constant in the last slot may be counted
      or not, and an empty pool has the count 0 or 1. -/

namespace Linkage

open Text (Bytes)

namespace ClassFile

variable {α β : Type} {bytes rest : Bytes}

/-- Whatever the reader reads, it has taken the encoding of it. -/
def Canonical (r : Reader α) (encode : α → Bytes) : Prop :=
  ∀ ⦃bytes a rest⦄, r bytes = .ok (a, rest) → bytes = encode a ++ rest

/-! ## Numbers and lists -/

theorem canonical_u8 : Canonical Reader.u8 (fun b => [b]) := by
  intro bytes b rest h
  cases bytes with
  | nil => cases h
  | cons c bytes =>
    cases h
    rfl

/-- Two bytes are the encoding of the number that they make up. -/
theorem encodeU16_ofNat (high low : UInt8) :
    encodeU16 (UInt16.ofNat (high.toNat * 256 + low.toNat)) = [high, low] := by
  have hhigh := high.toNat_lt
  have hlow := low.toNat_lt
  have hvalue : (UInt16.ofNat (high.toNat * 256 + low.toNat)).toNat =
      high.toNat * 256 + low.toNat := by
    rw [UInt16.toNat_ofNat']
    omega
  have hfirst : (high.toNat * 256 + low.toNat) / 256 = high.toNat := by omega
  have hsecond : (high.toNat * 256 + low.toNat) % 256 = low.toNat := by omega
  rw [encodeU16, hvalue, hfirst, hsecond, UInt8.ofNat_toNat, UInt8.ofNat_toNat]

theorem encodeU32_ofNat (high low : UInt16) :
    encodeU32 (UInt32.ofNat (high.toNat * 65536 + low.toNat)) =
      encodeU16 high ++ encodeU16 low := by
  have hhigh := high.toNat_lt
  have hlow := low.toNat_lt
  have hvalue : (UInt32.ofNat (high.toNat * 65536 + low.toNat)).toNat =
      high.toNat * 65536 + low.toNat := by
    rw [UInt32.toNat_ofNat']
    omega
  have hfirst : (high.toNat * 65536 + low.toNat) / 65536 = high.toNat := by omega
  have hsecond : (high.toNat * 65536 + low.toNat) % 65536 = low.toNat := by omega
  rw [encodeU32, hvalue, hfirst, hsecond, UInt16.ofNat_toNat, UInt16.ofNat_toNat]

theorem canonical_u16 : Canonical Reader.u16 encodeU16 := by
  intro bytes n rest h
  obtain ⟨high, rest₁, hhigh, h⟩ := reader_bind_eq_ok h
  obtain ⟨low, rest₂, hlow, h⟩ := reader_bind_eq_ok h
  cases h
  rw [canonical_u8 hhigh, canonical_u8 hlow, encodeU16_ofNat]
  rfl

theorem canonical_u32 : Canonical Reader.u32 encodeU32 := by
  intro bytes n rest h
  obtain ⟨high, rest₁, hhigh, h⟩ := reader_bind_eq_ok h
  obtain ⟨low, rest₂, hlow, h⟩ := reader_bind_eq_ok h
  cases h
  rw [canonical_u16 hhigh, canonical_u16 hlow, encodeU32_ofNat, List.append_assoc]

theorem take_eq_ok {n : Nat} {front : Bytes} (h : Reader.take n bytes = .ok (front, rest)) :
    bytes = front ++ rest ∧ front.length = n := by
  unfold Reader.take at h
  rw [List.splitAt_eq] at h
  dsimp only at h
  split at h
  · rename_i hlength
    cases h
    exact ⟨(List.take_append_drop n bytes).symm, hlength⟩
  · cases h

/-- The values that are read come after those that are there. -/
theorem manyAfter_eq_ok {r : Reader α} {encode : α → Bytes} (hr : Canonical r encode) {n : Nat}
    {done l : List α} (h : Reader.manyAfter r n done bytes = .ok (l, rest)) :
    ∃ more, l = done.reverse ++ more ∧ more.length = n ∧
      bytes = more.flatMap encode ++ rest := by
  induction n generalizing done bytes with
  | zero =>
    cases h
    exact ⟨[], by simp, rfl, rfl⟩
  | succ n ih =>
    obtain ⟨a, mid, ha, h⟩ := reader_bind_eq_ok h
    obtain ⟨more, rfl, hlength, hbytes⟩ := ih h
    refine ⟨a :: more, by simp, by simp [hlength], ?_⟩
    rw [hr ha, hbytes, List.flatMap_cons, List.append_assoc]

theorem canonical_counted {r : Reader α} {encode : α → Bytes} (hr : Canonical r encode) :
    Canonical (Reader.counted r) (encodeCounted encode) := by
  intro bytes l rest h
  obtain ⟨n, mid, hn, h⟩ := reader_bind_eq_ok h
  obtain ⟨more, rfl, hlength, hmid⟩ := manyAfter_eq_ok hr h
  -- The count is the one that is stored, since it is the number of values read.
  rw [canonical_u16 hn, hmid, encodeCounted, hlength, UInt16.ofNat_toNat, List.append_assoc]

/-! ## Constants -/

theorem encodeUtf8_of_decodeUtf8 {text : String} (h : Text.decodeUtf8 bytes = .ok text) :
    Text.encodeUtf8 text = bytes := by
  unfold Text.decodeUtf8 at h
  split at h
  · rename_i found hfound
    cases h
    unfold String.fromUTF8? at hfound
    split at hfound
    · cases hfound
      rfl
    · cases hfound
  · cases h

theorem canonical_utf8 : Canonical readUtf8 (fun text => Constant.encodeBody (.utf8 text)) := by
  intro bytes text rest h
  obtain ⟨length, mid, hlength, h⟩ := reader_bind_eq_ok h
  obtain ⟨front, rest', hfront, h⟩ := reader_bind_eq_ok h
  obtain ⟨hmid, hcount⟩ := take_eq_ok hfront
  cases hdecoded : Text.decodeUtf8 front with
  | error fault =>
    rw [hdecoded] at h
    cases h
  | ok decoded =>
    rw [hdecoded] at h
    cases h
    -- The decoder accepts one spelling of a text only, which is the one that is written.
    obtain rfl := encodeUtf8_of_decodeUtf8 hdecoded
    rw [canonical_u16 hlength, hmid]
    simp only [Constant.encodeBody, hcount, UInt16.ofNat_toNat, List.append_assoc]

theorem map_eq_ok {r : Reader α} {encode : α → Bytes} (hr : Canonical r encode) {make : α → β}
    {b : β} (h : (make <$> r) bytes = .ok (b, rest)) :
    ∃ a, b = make a ∧ bytes = encode a ++ rest := by
  rw [map_eq_pure_bind] at h
  obtain ⟨a, mid, ha, h⟩ := reader_bind_eq_ok h
  cases h
  exact ⟨a, rfl, hr ha⟩

theorem readPair_eq_ok {r : Reader α} {encode : α → Bytes} (hr : Canonical r encode)
    {make : α → α → β} {b : β} (h : readPair r make bytes = .ok (b, rest)) :
    ∃ a a', b = make a a' ∧ bytes = (encode a ++ encode a') ++ rest := by
  obtain ⟨a, mid, ha, h⟩ := reader_bind_eq_ok h
  obtain ⟨a', mid', ha', h⟩ := reader_bind_eq_ok h
  cases h
  refine ⟨a, a', rfl, ?_⟩
  rw [hr ha, hr ha', List.append_assoc]

/-- A constant that is read is of the kind asked for, and the bytes are its body. -/
theorem readBody_eq_ok {tag : ConstantTag} {c : Constant}
    (h : readBody tag bytes = .ok (c, rest)) :
    c.tag? = some tag ∧ bytes = c.encodeBody ++ rest := by
  cases tag with
  | utf8 => obtain ⟨text, rfl, rfl⟩ := map_eq_ok canonical_utf8 h; exact ⟨rfl, rfl⟩
  | integer => obtain ⟨bits, rfl, rfl⟩ := map_eq_ok canonical_u32 h; exact ⟨rfl, rfl⟩
  | float => obtain ⟨bits, rfl, rfl⟩ := map_eq_ok canonical_u32 h; exact ⟨rfl, rfl⟩
  | long => obtain ⟨high, low, rfl, rfl⟩ := readPair_eq_ok canonical_u32 h; exact ⟨rfl, rfl⟩
  | double => obtain ⟨high, low, rfl, rfl⟩ := readPair_eq_ok canonical_u32 h; exact ⟨rfl, rfl⟩
  | methodHandle =>
    obtain ⟨kind, mid, hkind, h⟩ := reader_bind_eq_ok h
    obtain ⟨reference, mid', hreference, h⟩ := reader_bind_eq_ok h
    cases h
    refine ⟨rfl, ?_⟩
    rw [canonical_u8 hkind, canonical_u16 hreference]
    rfl
  | fieldref => obtain ⟨a, b, rfl, rfl⟩ := readPair_eq_ok canonical_u16 h; exact ⟨rfl, rfl⟩
  | methodref => obtain ⟨a, b, rfl, rfl⟩ := readPair_eq_ok canonical_u16 h; exact ⟨rfl, rfl⟩
  | interfaceMethodref =>
    obtain ⟨a, b, rfl, rfl⟩ := readPair_eq_ok canonical_u16 h
    exact ⟨rfl, rfl⟩
  | nameAndType => obtain ⟨a, b, rfl, rfl⟩ := readPair_eq_ok canonical_u16 h; exact ⟨rfl, rfl⟩
  | dynamic => obtain ⟨a, b, rfl, rfl⟩ := readPair_eq_ok canonical_u16 h; exact ⟨rfl, rfl⟩
  | invokeDynamic => obtain ⟨a, b, rfl, rfl⟩ := readPair_eq_ok canonical_u16 h; exact ⟨rfl, rfl⟩
  | classRef => obtain ⟨name, rfl, rfl⟩ := map_eq_ok canonical_u16 h; exact ⟨rfl, rfl⟩
  | stringRef => obtain ⟨value, rfl, rfl⟩ := map_eq_ok canonical_u16 h; exact ⟨rfl, rfl⟩
  | methodType => obtain ⟨value, rfl, rfl⟩ := map_eq_ok canonical_u16 h; exact ⟨rfl, rfl⟩
  | moduleName => obtain ⟨name, rfl, rfl⟩ := map_eq_ok canonical_u16 h; exact ⟨rfl, rfl⟩
  | packageName => obtain ⟨name, rfl, rfl⟩ := map_eq_ok canonical_u16 h; exact ⟨rfl, rfl⟩

theorem code_of_ofCode? {code : UInt8} {tag : ConstantTag}
    (h : ConstantTag.ofCode? code = some tag) : tag.code = code := by
  have hcode := List.find?_some h
  simpa using hcode

theorem canonical_constant : Canonical readConstant Constant.encode := by
  intro bytes c rest h
  obtain ⟨code, mid, hcode, h⟩ := reader_bind_eq_ok h
  cases htag : ConstantTag.ofCode? code with
  | none =>
    rw [htag] at h
    cases h
  | some tag =>
    rw [htag] at h
    obtain ⟨hkind, hbody⟩ := readBody_eq_ok h
    rw [canonical_u8 hcode, hbody, Constant.encode, hkind, ← code_of_ofCode? htag]
    rfl

/-- The slots that are read come after those that are there. A hole is no byte. -/
theorem readSlots_eq_ok {n : Nat} {owed : Bool} {done pool : List Constant}
    (h : readSlots n owed done bytes = .ok (pool, rest)) :
    ∃ more, pool = done.reverse ++ more ∧ bytes = more.flatMap Constant.encode ++ rest := by
  induction n generalizing owed done bytes with
  | zero =>
    cases h
    cases owed with
    | false => exact ⟨[], by simp, rfl⟩
    -- The last wide constant is followed by its hole even if no slot is left for it.
    | true => exact ⟨[.hole], by simp, rfl⟩
  | succ n ih =>
    cases owed with
    | true =>
      obtain ⟨more, rfl, hbytes⟩ := ih h
      exact ⟨.hole :: more, by simp, hbytes⟩
    | false =>
      obtain ⟨c, mid, hconstant, h⟩ := reader_bind_eq_ok h
      obtain ⟨more, rfl, hbytes⟩ := ih h
      refine ⟨c :: more, by simp, ?_⟩
      rw [canonical_constant hconstant, hbytes, List.flatMap_cons, List.append_assoc]

/-- The bytes of a pool are a count and the constants. The count is not known from the
    constants. -/
theorem readPool_eq_ok {pool : List Constant} (h : readPool bytes = .ok (pool, rest)) :
    ∃ count, bytes = encodeU16 count ++ (pool.flatMap Constant.encode ++ rest) := by
  obtain ⟨count, mid, hcount, h⟩ := reader_bind_eq_ok h
  obtain ⟨more, rfl, hmid⟩ := readSlots_eq_ok h
  refine ⟨count, ?_⟩
  rw [canonical_u16 hcount, hmid]

/-! ## Attributes and members -/

theorem canonical_attribute : Canonical readAttribute Attribute.encode := by
  intro bytes a rest h
  obtain ⟨nameIndex, rest₁, hname, h⟩ := reader_bind_eq_ok h
  obtain ⟨length, rest₂, hlength, h⟩ := reader_bind_eq_ok h
  obtain ⟨info, rest₃, hinfo, h⟩ := reader_bind_eq_ok h
  cases h
  obtain ⟨rfl, hcount⟩ := take_eq_ok hinfo
  rw [canonical_u16 hname, canonical_u32 hlength, Attribute.encode]
  simp only [hcount, UInt32.ofNat_toNat, List.append_assoc]

theorem canonical_member : Canonical readMember Member.encode := by
  intro bytes m rest h
  obtain ⟨access, rest₁, haccess, h⟩ := reader_bind_eq_ok h
  obtain ⟨nameIndex, rest₂, hname, h⟩ := reader_bind_eq_ok h
  obtain ⟨descriptorIndex, rest₃, hdescriptor, h⟩ := reader_bind_eq_ok h
  obtain ⟨attributes, rest₄, hattributes, h⟩ := reader_bind_eq_ok h
  cases h
  rw [canonical_u16 haccess, canonical_u16 hname, canonical_u16 hdescriptor,
    canonical_counted canonical_attribute hattributes, Member.encode]
  simp only [List.append_assoc]

/-! ## The whole file -/

/-- The bytes of a file, with the count that is stored in front of its pool. -/
theorem readFile_eq_ok {file : ClassFile} (h : readFile bytes = .ok (file, rest)) :
    ∃ count, bytes = file.encodeWith count ++ rest := by
  obtain ⟨found, rest₁, hmagic, h⟩ := reader_bind_eq_ok h
  split at h
  · obtain ⟨_, _, hthrow, _⟩ := reader_bind_eq_ok h
    cases hthrow
  rename_i hfound
  rw [not_not] at hfound
  obtain ⟨minor, rest₂, hminor, h⟩ := reader_bind_eq_ok h
  obtain ⟨major, rest₃, hmajor, h⟩ := reader_bind_eq_ok h
  obtain ⟨pool, rest₄, hpool, h⟩ := reader_bind_eq_ok h
  obtain ⟨access, rest₅, haccess, h⟩ := reader_bind_eq_ok h
  obtain ⟨thisClass, rest₆, hthis, h⟩ := reader_bind_eq_ok h
  obtain ⟨superClass, rest₇, hsuper, h⟩ := reader_bind_eq_ok h
  obtain ⟨interfaces, rest₈, hinterfaces, h⟩ := reader_bind_eq_ok h
  obtain ⟨fields, rest₉, hfields, h⟩ := reader_bind_eq_ok h
  obtain ⟨methods, rest₁₀, hmethods, h⟩ := reader_bind_eq_ok h
  obtain ⟨attributes, rest₁₁, hattributes, h⟩ := reader_bind_eq_ok h
  cases h
  obtain ⟨count, hcount⟩ := readPool_eq_ok hpool
  refine ⟨count, ?_⟩
  -- Each part that was read stands at its place in the bytes.
  rw [canonical_u32 hmagic, hfound, canonical_u16 hminor, canonical_u16 hmajor, hcount,
    canonical_u16 haccess, canonical_u16 hthis, canonical_u16 hsuper,
    canonical_counted canonical_u16 hinterfaces, canonical_counted canonical_member hfields,
    canonical_counted canonical_member hmethods,
    canonical_counted canonical_attribute hattributes, encodeWith]
  simp only [List.append_assoc]

/-- An accepted file has no byte left over, and the table of its bootstrap methods is
    read from an attribute. -/
theorem parse_eq_ok {file : ClassFile} (h : parse bytes = .ok file) :
    ∃ count, bytes = file.encodeWith count := by
  obtain ⟨table, hread⟩ := readFile_of_parse h
  obtain ⟨count, hbytes⟩ := readFile_eq_ok hread
  rw [List.append_nil] at hbytes
  exact ⟨count, hbytes⟩

/-- The count that a file stores in front of its pool. -/
def storedCount (bytes : Bytes) : UInt16 :=
  UInt16.ofNat ((bytes[8]?.getD 0).toNat * 256 + (bytes[9]?.getD 0).toNat)

theorem storedCount_append {front : Bytes} (hfront : front.length = 8) (count : UInt16)
    (back : Bytes) : storedCount (front ++ (encodeU16 count ++ back)) = count := by
  have hcount := count.toNat_lt
  have hback (k : Nat) (l : Bytes) : (front ++ l)[8 + k]? = l[k]? := by
    rw [← hfront, List.getElem?_append_right (Nat.le_add_right _ _), Nat.add_sub_cancel_left]
  have hhigh : (front ++ (encodeU16 count ++ back))[8]? = some (UInt8.ofNat (count.toNat / 256)) :=
    hback 0 _
  have hlow : (front ++ (encodeU16 count ++ back))[9]? = some (UInt8.ofNat (count.toNat % 256)) :=
    hback 1 _
  rw [storedCount, hhigh, hlow]
  apply UInt16.toNat_inj.mp
  simp only [Option.getD_some, UInt16.toNat_ofNat', UInt8.toNat_ofNat']
  omega

/-- The bytes of a file with a given count: eight bytes, the two of the count, and the
    rest. -/
theorem encodeWith_eq (file : ClassFile) :
    ∃ front back : Bytes, front.length = 8 ∧
      ∀ count, file.encodeWith count = front ++ (encodeU16 count ++ back) := by
  refine ⟨encodeU32 magic ++ encodeU16 file.minor ++ encodeU16 file.major,
    (file.encodeWith 0).drop 10, rfl, ?_⟩
  intro count
  simp only [encodeWith, List.append_assoc]
  rfl

theorem storedCount_encodeWith (file : ClassFile) (count : UInt16) :
    storedCount (file.encodeWith count) = count := by
  obtain ⟨front, back, hfront, heq⟩ := file.encodeWith_eq
  rw [heq, storedCount_append hfront]

/-- The count is in the bytes with the indices 8 and 9. -/
theorem getElem?_encodeWith (file : ClassFile) (count count' : UInt16) {i : Nat} (h8 : i ≠ 8)
    (h9 : i ≠ 9) : (file.encodeWith count)[i]? = (file.encodeWith count')[i]? := by
  obtain ⟨front, back, hfront, heq⟩ := file.encodeWith_eq
  rw [heq, heq]
  by_cases hi : i < 8
  · rw [List.getElem?_append_left (by omega), List.getElem?_append_left (by omega)]
  · have hafter (n : UInt16) : (front ++ (encodeU16 n ++ back))[i]? = back[i - 10]? := by
      have hlength : (front ++ encodeU16 n).length = 10 := by simp [hfront, encodeU16]
      rw [← List.append_assoc, List.getElem?_append_right (by omega), hlength]
    rw [hafter, hafter]

theorem length_encodeWith (file : ClassFile) (count count' : UInt16) :
    (file.encodeWith count).length = (file.encodeWith count').length := by
  obtain ⟨front, back, -, heq⟩ := file.encodeWith_eq
  rw [heq, heq]
  simp [encodeU16]

/-- An accepted file is the encoding of what has been read, with its own count in front
    of the pool. Another file that is read alike differs in the two bytes of the count at
    most. -/
theorem bytes_eq_of_parse {file : ClassFile} (h : parse bytes = .ok file) :
    bytes = file.encodeWith (storedCount bytes) ∧
      ∀ other, parse other = .ok file → other.length = bytes.length ∧
        ∀ i, i ≠ 8 → i ≠ 9 → other[i]? = bytes[i]? := by
  obtain ⟨count, rfl⟩ := parse_eq_ok h
  refine ⟨by rw [storedCount_encodeWith], ?_⟩
  intro other hother
  obtain ⟨count', rfl⟩ := parse_eq_ok hother
  exact ⟨length_encodeWith file count' count,
    fun i h8 h9 => getElem?_encodeWith file count' count h8 h9⟩

/-- The sample file ends in a wide constant, and the hole behind it need not be counted. -/
theorem bytes_eq_of_parse_sampleFile :
    parse (sampleFile.encodeWith 9) = .ok sampleFile ∧
      parse (sampleFile.encodeWith 8) = .ok sampleFile ∧
      sampleFile.encodeWith 9 =
        sampleFile.encodeWith (storedCount (sampleFile.encodeWith 9)) ∧
      (sampleFile.encodeWith 8).length = (sampleFile.encodeWith 9).length ∧
      ∀ i, i ≠ 8 → i ≠ 9 → (sampleFile.encodeWith 8)[i]? = (sampleFile.encodeWith 9)[i]? := by
  have hcounted : parse (sampleFile.encodeWith 9) = .ok sampleFile :=
    Succeeds.eq_ok (by decide +kernel)
  have huncounted : parse (sampleFile.encodeWith 8) = .ok sampleFile :=
    Succeeds.eq_ok (by decide +kernel)
  obtain ⟨hbytes, hothers⟩ := bytes_eq_of_parse hcounted
  exact ⟨hcounted, huncounted, hbytes, hothers _ huncounted⟩

end ClassFile

end Linkage
