import RemoteTable.Entry

/-! # Serialization

`serialization.c`.  A `data_t` travels as its size and its bytes, an `entry_t` as
two sizes, the key with its NUL, and the bytes of the value.  The sizes stand in
fields of `sizeof(int)` bytes, but they are written and read through a `char *`:
one byte of each field is meaningful, and it is read back as a signed `char`.

The encoders are described by the bytes they write (`wireData`, `wireEntry`), the
decoders by the buffers they can take apart (`ValueLayout`, `EntryLayout`).
-/
namespace RemoteTable
open CMem

/-- `sizeof(int)`. -/
def sizeofInt : Nat := 4

/-- `data_to_buffer`: the value returned, and what it stores through `data_buf`. -/
def dataToBuffer (junk : Nat → UInt8) (data : Option DataT) : Exec (Int × Option Block) :=
  match data with
  | none => .ok (-1, none)
  | some d =>
    let size := toInt32 (sizeofInt + d.datasize)
    match malloc junk size with
    | none => .ok (-1, none)
    | some temp => do
      let temp ← store temp 0 [toByte d.datasize]
      let src ← deref d.data
      let bytes ← slice src 0 d.datasize
      let temp ← store temp sizeofInt bytes
      return (size, some temp)

/-- `buffer_to_data`. -/
def bufferToData (junk : Nat → UInt8) (dataBuf : Option Block) (dataBufSize : Int) :
    Exec (Option DataT) :=
  match dataBuf with
  | none => .ok none
  | some buf =>
    if dataBufSize = -1 then .ok none else do
      let c ← load buf 0
      let size := charVal c
      let src ← slice buf sizeofInt size
      let data ← deref (malloc junk size)
      let data ← store data 0 src
      return dataCreate2 size (some data)

/-- `entry_to_buffer`: the value returned, and what it stores through `entry_buf`. -/
def entryToBuffer (junk : Nat → UInt8) (data : Option EntryT) : Exec (Int × Option Block) :=
  match data with
  | none => .ok (-1, none)
  | some e => do
    let n ← strlen e.key
    let ksize := toInt32 (n + 1)
    let value ← deref e.value
    let size := toInt32 (2 * sizeofInt + ksize + value.datasize)
    let temp ← deref (malloc junk size)
    let temp ← store temp 0 (List.replicate size.toNat 0)
    let temp ← store temp 0 [toByte ksize]
    let temp ← store temp sizeofInt [toByte value.datasize]
    let key ← slice e.key 0 ksize
    let temp ← store temp (2 * sizeofInt) key
    let src ← deref value.data
    let bytes ← slice src 0 value.datasize
    let temp ← store temp (2 * sizeofInt + ksize).toNat bytes
    return (size, some temp)

/-- `buffer_to_entry`. -/
def bufferToEntry (junk : Nat → UInt8) (entryBuf : Option Block) (entryBufSize : Int) :
    Exec (Option EntryT) :=
  match entryBuf with
  | none => .ok none
  | some buf =>
    if entryBufSize = -1 then .ok none else do
      let c ← load buf 0
      let ksize := charVal c
      let c ← load buf sizeofInt
      let dsize := charVal c
      let src ← slice buf (2 * sizeofInt + ksize) dsize
      let data ← deref (malloc junk dsize)
      let data ← store data 0 src
      let src ← slice buf (2 * sizeofInt) ksize
      let key ← deref (malloc junk ksize)
      let key ← store key 0 src
      return some (entryCreate key (dataCreate2 dsize (some data)))

/-! ## What the encoders write -/

/-- The bytes `data_to_buffer` leaves in its block: the last three of the header
are those `malloc` handed out. -/
def wireData (junk : Nat → UInt8) (d : DataT) : Block :=
  toByte d.datasize :: junk 1 :: junk 2 :: junk 3 :: d.bytes

/-- The bytes `entry_to_buffer` leaves in its block. -/
def wireEntry (key : List UInt8) (d : DataT) : Block :=
  [toByte (key.length + 1), 0, 0, 0] ++ [toByte d.datasize, 0, 0, 0] ++ (key ++ [0]) ++ d.bytes


section Encoders
variable {d : DataT} {e : EntryT}

/-- **`data_to_buffer` writes the value**, and three bytes fewer than it sends. -/
theorem dataToBuffer_eq (junk : Nat → UInt8) (hd : d.Readable)
    (hfit : sizeofInt + d.datasize ≤ intMax) :
    dataToBuffer junk (some d) = .ok (sizeofInt + d.datasize, some (wireData junk d)) := by
  obtain ⟨src, hsrc, hslice⟩ := hd.slice
  have hnonneg := hd.size_nonneg
  have hlen := hd.length_bytes
  have hsize : toInt32 (sizeofInt + d.datasize) = sizeofInt + d.datasize :=
    toInt32_of_nonneg (by omega) hfit
  have hblock : malloc junk (sizeofInt + d.datasize) =
      some (junk 0 :: junk 1 :: junk 2 :: junk 3 ::
        (List.range d.bytes.length).map fun i => junk (4 + i)) := by
    have hn : ((sizeofInt : Int) + d.datasize).toNat = 4 + d.bytes.length := by
      unfold sizeofInt
      omega
    rw [malloc_of_nonneg junk (by unfold sizeofInt; omega), hn, List.range_add]
    simp [List.range_succ]
  have hfirst := store_append [] [junk 0] (junk 1 :: junk 2 :: junk 3 ::
    (List.range d.bytes.length).map fun i => junk (4 + i)) [toByte d.datasize] rfl
  have hrest := store_append [toByte d.datasize, junk 1, junk 2, junk 3]
    ((List.range d.bytes.length).map fun i => junk (4 + i)) [] d.bytes (by simp)
  simp only [List.nil_append, List.append_nil, List.cons_append, List.length_nil] at hfirst hrest
  change store _ sizeofInt _ = _ at hrest
  simp only [dataToBuffer, hsize, hblock, hfirst, hsrc, hslice, hrest, ok_bind, deref_some,
    pure_eq_ok, wireData]

/-- A value that does not fit with its header in an `int` is refused. -/
theorem dataToBuffer_large (junk : Nat → UInt8) (hd : d.Valid)
    (hlarge : ¬ sizeofInt + d.datasize ≤ intMax) : dataToBuffer junk (some d) = .ok (-1, none) := by
  have hle := hd.size_le
  have hneg : toInt32 (sizeofInt + d.datasize) < 0 :=
    toInt32_of_wrap (Int.not_le.mp hlarge) (by unfold sizeofInt; omega)
  simp only [dataToBuffer, malloc_of_neg junk hneg]

/-- Two sizes, a key and a value written into a zeroed block: every byte of it is
determined. -/
theorem store_fields (a c : UInt8) (key bytes : Block) :
    ∃ b₁ b₂ b₃, store (List.replicate (2 * sizeofInt + key.length + bytes.length) 0) 0 [a] = .ok b₁ ∧
      store b₁ sizeofInt [c] = .ok b₂ ∧ store b₂ (2 * sizeofInt) key = .ok b₃ ∧
      store b₃ (2 * sizeofInt + key.length) bytes =
        .ok ([a, 0, 0, 0] ++ [c, 0, 0, 0] ++ key ++ bytes) := by
  have hzeros : List.replicate (2 * sizeofInt + key.length + bytes.length) (0 : UInt8) =
      [] ++ [0] ++ ([0, 0, 0] ++ [0] ++ [0, 0, 0] ++ List.replicate key.length 0 ++
        List.replicate bytes.length 0) := by
    rw [List.replicate_add, List.replicate_add]
    rfl
  refine ⟨[a, 0, 0, 0] ++ [0] ++ ([0, 0, 0] ++ List.replicate key.length 0 ++
      List.replicate bytes.length 0), [a, 0, 0, 0, c, 0, 0, 0] ++ List.replicate key.length 0 ++
      List.replicate bytes.length 0, [a, 0, 0, 0, c, 0, 0, 0] ++ key ++
      List.replicate bytes.length 0, ?_, ?_, ?_, ?_⟩
  · rw [hzeros]
    exact store_append [] [0] _ [a] rfl
  · exact store_append [a, 0, 0, 0] [0] _ [c] rfl
  · exact store_append [a, 0, 0, 0, c, 0, 0, 0] _ _ key (by simp)
  · have h := store_append ([a, 0, 0, 0, c, 0, 0, 0] ++ key) (List.replicate bytes.length 0) [] bytes
      (by simp)
    have hoff : ([a, 0, 0, 0, c, 0, 0, 0] ++ key).length = 2 * sizeofInt + key.length := by
      simp only [List.length_append, List.length_cons, List.length_nil, sizeofInt]
    rwa [List.append_nil, List.append_nil, hoff] at h

/-- **`entry_to_buffer` writes the two sizes, the key and the value**: every byte
of the block is determined. -/
theorem entryToBuffer_eq (junk : Nat → UInt8) (hkey : Terminated e.key) (hval : e.value = some d)
    (hd : d.Readable)
    (hfit : 2 * sizeofInt + (e.keyStr.length + 1) + d.datasize ≤ intMax) :
    entryToBuffer junk (some e) = .ok (2 * sizeofInt + (e.keyStr.length + 1) + d.datasize,
      some (wireEntry e.keyStr d)) := by
  obtain ⟨src, hsrc, hslice⟩ := hd.slice
  have hnonneg := hd.size_nonneg
  have hlen := hd.length_bytes
  have hkeylen : (e.keyStr ++ [0]).length = e.keyStr.length + 1 := by simp
  -- neither size wraps
  have hksize : toInt32 ((e.keyStr.length : Int) + 1) = e.keyStr.length + 1 :=
    toInt32_of_nonneg (by omega) (by unfold sizeofInt at hfit; omega)
  have hsize : toInt32 (2 * sizeofInt + ((e.keyStr.length : Int) + 1) + d.datasize) =
      2 * sizeofInt + (e.keyStr.length + 1) + d.datasize :=
    toInt32_of_nonneg (by omega) hfit
  have hkslice : slice e.key 0 ((e.keyStr.length : Int) + 1) = .ok (e.keyStr ++ [0]) := by
    have h := hkey.strdup
    rwa [strdup, hkey.strlen, ok_bind] at h
  -- the block is zeroed whole, then written field by field
  have htotal : (2 * (sizeofInt : Int) + (e.keyStr.length + 1) + d.datasize).toNat =
      2 * sizeofInt + (e.keyStr ++ [0]).length + d.bytes.length := by
    omega
  obtain ⟨temp, hmalloc, hzero⟩ := malloc_store junk
    (show ((List.replicate (2 * sizeofInt + (e.keyStr ++ [0]).length + d.bytes.length)
      (0 : UInt8)).length : Int) = 2 * sizeofInt + (e.keyStr.length + 1) + d.datasize by
      rw [List.length_replicate]
      omega)
  obtain ⟨b₁, b₂, b₃, h₁, h₂, h₃, h₄⟩ := store_fields (toByte (e.keyStr.length + 1))
    (toByte d.datasize) (e.keyStr ++ [0]) d.bytes
  have hoff : (2 * (sizeofInt : Int) + (e.keyStr.length + 1)).toNat =
      2 * sizeofInt + (e.keyStr ++ [0]).length := by
    omega
  simp only [entryToBuffer]
  rw [hkey.strlen, ok_bind, show (cstr e.key).length = e.keyStr.length from rfl, hksize, hval,
    deref_some, ok_bind, hsize]
  simp only [hmalloc, htotal, hzero, h₁, h₂, hkslice, h₃, hsrc, hslice, hoff, h₄, ok_bind,
    deref_some, pure_eq_ok, wireEntry]

end Encoders

/-! ## What the decoders take apart -/

/-- The size of a value as `buffer_to_data` reads it. -/
def valueSize (buf : Block) : Int := charVal (buf[0]?.getD 0)

/-- The bytes it takes for the value. -/
def valueField (buf : Block) : Block := (buf.drop sizeofInt).take (valueSize buf).toNat

/-- **A buffer `buffer_to_data` can take apart**: there is a size, it is not negative, and the
bytes, if there are any, lie inside the buffer. -/
structure ValueLayout (buf : Block) : Prop where
  header : 0 < buf.length
  nonneg : 0 ≤ valueSize buf
  fits : valueSize buf ≠ 0 → sizeofInt + valueSize buf ≤ buf.length

instance (buf : Block) : Decidable (ValueLayout buf) :=
  decidable_of_iff (0 < buf.length ∧ 0 ≤ valueSize buf ∧
      (valueSize buf ≠ 0 → sizeofInt + valueSize buf ≤ buf.length))
    ⟨fun h => ⟨h.1, h.2.1, h.2.2⟩, fun h => ⟨h.1, h.2, h.3⟩⟩

section ValueDecoder
variable {buf : Block}

theorem ValueLayout.length_valueField (h : ValueLayout buf) :
    ((valueField buf).length : Int) = valueSize buf := by
  have := h.nonneg
  have := h.fits
  unfold valueField
  rw [List.length_take, List.length_drop]
  omega

/-- `buffer_to_data` on a buffer it can take apart. -/
theorem bufferToData_layout (junk : Nat → UInt8) (h : ValueLayout buf) {size : Int} (hsize : size ≠ -1) :
    bufferToData junk (some buf) size =
      .ok (dataCreate2 (valueSize buf) (some (valueField buf))) := by
  have hload : load buf 0 = .ok (buf[0]?.getD 0) := by
    rw [load_eq_ok, List.getElem?_eq_getElem h.header]
    rfl
  have hslice : slice buf sizeofInt (valueSize buf) = .ok (valueField buf) := by
    rw [slice_eq_ok]
    exact ⟨h.nonneg, fun hne => ⟨by omega, h.fits hne⟩, rfl⟩
  obtain ⟨data, hmalloc, hstore⟩ := malloc_store junk h.length_valueField
  rw [bufferToData, if_neg hsize, hload, ok_bind]
  simp only [show charVal (buf[0]?.getD 0) = valueSize buf from rfl, hslice, ok_bind, hmalloc,
    deref_some, hstore, pure_eq_ok]

/-- On any other buffer it faults. -/
theorem bufferToData_malformed (junk : Nat → UInt8) (h : ¬ ValueLayout buf) {size : Int}
    (hsize : size ≠ -1) : ∃ f, bufferToData junk (some buf) size = .error f := by
  cases hrun : bufferToData junk (some buf) size with
  | error f => exact ⟨f, rfl⟩
  | ok r =>
    rw [bufferToData, if_neg hsize] at hrun
    obtain ⟨c, hc, hrun⟩ := bind_eq_ok.mp hrun
    obtain ⟨src, hsrc, -⟩ := bind_eq_ok.mp hrun
    rw [load_eq_ok] at hc
    have hvalue : valueSize buf = charVal c := by
      rw [valueSize, hc]
      rfl
    rw [slice_eq_ok, ← hvalue] at hsrc
    have hheader : 0 < buf.length := (List.getElem?_eq_some_iff.mp hc).1
    exact absurd ⟨hheader, hsrc.1, fun hne => (hsrc.2.1 hne).2⟩ h

/-- **What `buffer_to_data` returns has at most 127 bytes.** -/
theorem bufferToData_small {junk : Nat → UInt8} {size : Int} {d : DataT}
    (h : bufferToData junk (some buf) size = .ok (some d)) : d.datasize ≤ 127 := by
  by_cases hsize : size = -1
  · rw [bufferToData, if_pos hsize] at h
    cases h
  · by_cases hlayout : ValueLayout buf
    · rw [bufferToData_layout junk hlayout hsize] at h
      have hd := Except.ok.inj h
      unfold dataCreate2 at hd
      split at hd
      · cases hd
      · obtain rfl := Option.some.inj hd
        exact charVal_upper _
    · obtain ⟨f, hf⟩ := bufferToData_malformed junk hlayout hsize
      rw [hf] at h
      cases h

end ValueDecoder

/-- The size of the key as the decoder reads it. -/
def keySize (buf : Block) : Int := charVal (buf[0]?.getD 0)

/-- The size of the value as the decoder reads it. -/
def dataSize (buf : Block) : Int := charVal (buf[sizeofInt]?.getD 0)

/-- The bytes the decoder takes for the key. -/
def keyField (buf : Block) : Block := (buf.drop (2 * sizeofInt)).take (keySize buf).toNat

/-- The bytes the decoder takes for the value. -/
def dataField (buf : Block) : Block :=
  (buf.drop (2 * sizeofInt + (keySize buf).toNat)).take (dataSize buf).toNat

/-- **A buffer the decoder can take apart**: both sizes are there, neither is negative, and
each field, unless it is empty, lies inside the buffer. -/
structure EntryLayout (buf : Block) : Prop where
  header : sizeofInt < buf.length
  keySize_nonneg : 0 ≤ keySize buf
  dataSize_nonneg : 0 ≤ dataSize buf
  keyFits : keySize buf ≠ 0 → 2 * sizeofInt + keySize buf ≤ buf.length
  dataFits : dataSize buf ≠ 0 → 2 * sizeofInt + keySize buf + dataSize buf ≤ buf.length

instance (buf : Block) : Decidable (EntryLayout buf) :=
  decidable_of_iff (sizeofInt < buf.length ∧ 0 ≤ keySize buf ∧ 0 ≤ dataSize buf ∧
      (keySize buf ≠ 0 → 2 * sizeofInt + keySize buf ≤ buf.length) ∧
      (dataSize buf ≠ 0 → 2 * sizeofInt + keySize buf + dataSize buf ≤ buf.length))
    ⟨fun h => ⟨h.1, h.2.1, h.2.2.1, h.2.2.2.1, h.2.2.2.2⟩, fun h => ⟨h.1, h.2, h.3, h.4, h.5⟩⟩

/-- The entry the decoder makes of it: without a value when the value would be
empty. -/
def decodedEntry (buf : Block) : EntryT :=
  entryCreate (keyField buf) (dataCreate2 (dataSize buf) (some (dataField buf)))

section Decoder
variable {buf : Block}

namespace EntryLayout

theorem length_keyField (h : EntryLayout buf) : ((keyField buf).length : Int) = keySize buf := by
  have := h.keySize_nonneg
  have := h.keyFits
  unfold keyField
  rw [List.length_take, List.length_drop]
  omega

theorem length_dataField (h : EntryLayout buf) : ((dataField buf).length : Int) = dataSize buf := by
  have := h.keySize_nonneg
  have := h.dataSize_nonneg
  have := h.dataFits
  unfold dataField
  rw [List.length_take, List.length_drop]
  omega

/-- The sizes can be read. -/
theorem load (h : EntryLayout buf) {off : Nat} (hoff : off ≤ sizeofInt) :
    CMem.load buf off = .ok (buf[off]?.getD 0) := by
  have := h.header
  rw [load_eq_ok, List.getElem?_eq_getElem (by omega)]
  rfl

theorem slice_keyField (h : EntryLayout buf) :
    slice buf (2 * sizeofInt) (keySize buf) = .ok (keyField buf) := by
  rw [slice_eq_ok]
  exact ⟨h.keySize_nonneg, fun hne => ⟨by omega, h.keyFits hne⟩, rfl⟩

theorem slice_dataField (h : EntryLayout buf) :
    slice buf (2 * sizeofInt + keySize buf) (dataSize buf) = .ok (dataField buf) := by
  have hk := h.keySize_nonneg
  rw [slice_eq_ok]
  refine ⟨h.dataSize_nonneg, fun hne => ⟨by omega, h.dataFits hne⟩, ?_⟩
  have hoff : (2 * (sizeofInt : Int) + keySize buf).toNat = 2 * sizeofInt + (keySize buf).toNat := by
    omega
  rw [hoff]
  rfl

end EntryLayout

/-- The decoder on a buffer it can take apart. -/
theorem bufferToEntry_layout (junk : Nat → UInt8) (h : EntryLayout buf) {size : Int}
    (hsize : size ≠ -1) :
    bufferToEntry junk (some buf) size = .ok (some (decodedEntry buf)) := by
  obtain ⟨data, hmd, hsd⟩ := malloc_store junk h.length_dataField
  obtain ⟨key, hmk, hsk⟩ := malloc_store junk h.length_keyField
  simp only [bufferToEntry, if_neg hsize]
  rw [h.load (Nat.zero_le sizeofInt), h.load (Nat.le_refl sizeofInt)]
  simp only [ok_bind]
  rw [show charVal (buf[0]?.getD 0) = keySize buf from rfl,
    show charVal (buf[sizeofInt]?.getD 0) = dataSize buf from rfl]
  simp only [h.slice_dataField, hmd, hsd, h.slice_keyField, hmk, hsk, ok_bind, deref_some, pure_eq_ok]
  rfl

/-- On any other buffer the decoder faults. -/
theorem bufferToEntry_malformed (junk : Nat → UInt8) (h : ¬ EntryLayout buf) {size : Int}
    (hsize : size ≠ -1) : ∃ f, bufferToEntry junk (some buf) size = .error f := by
  cases hrun : bufferToEntry junk (some buf) size with
  | error f => exact ⟨f, rfl⟩
  | ok r =>
    simp only [bufferToEntry, if_neg hsize] at hrun
    obtain ⟨c, hc, hrun⟩ := bind_eq_ok.mp hrun
    obtain ⟨c', hc', hrun⟩ := bind_eq_ok.mp hrun
    obtain ⟨src, hsrc, hrun⟩ := bind_eq_ok.mp hrun
    obtain ⟨data, -, hrun⟩ := bind_eq_ok.mp hrun
    obtain ⟨data', -, hrun⟩ := bind_eq_ok.mp hrun
    obtain ⟨src', hsrc', -⟩ := bind_eq_ok.mp hrun
    rw [load_eq_ok] at hc hc'
    have hk : keySize buf = charVal c := by rw [keySize, hc]; rfl
    have hd : dataSize buf = charVal c' := by rw [dataSize, hc']; rfl
    rw [slice_eq_ok, ← hk, ← hd] at hsrc
    rw [slice_eq_ok, ← hk] at hsrc'
    have hheader : sizeofInt < buf.length := (List.getElem?_eq_some_iff.mp hc').1
    exact absurd ⟨hheader, hsrc'.1, hsrc.1, fun hne => (hsrc'.2.1 hne).2, fun hne => (hsrc.2.1 hne).2⟩ h

end Decoder

/-! ## Decoding what was encoded -/

section RoundTrip
variable {e : EntryT} {d : DataT}

/-- Within the range of a `char`, the sizes and the fields read back. -/
theorem wireEntry_layout {key : List UInt8} (hd : d.Readable) (hkey : key.length ≤ 126)
    (hsize : d.datasize ≤ 127) :
    EntryLayout (wireEntry key d) ∧ keyField (wireEntry key d) = key ++ [0] ∧
      dataSize (wireEntry key d) = d.datasize ∧ dataField (wireEntry key d) = d.bytes := by
  have hnonneg := hd.size_nonneg
  have hlen := hd.length_bytes
  have hk : keySize (wireEntry key d) = key.length + 1 :=
    charVal_toByte (x := key.length + 1) (by omega) (by omega)
  have hs : dataSize (wireEntry key d) = d.datasize := charVal_toByte hnonneg hsize
  have hn : (wireEntry key d).length = 8 + (key.length + 1) + d.bytes.length := by
    simp [wireEntry]
    omega
  have hlayout : EntryLayout (wireEntry key d) := by
    refine ⟨?_, by omega, by omega, fun _ => ?_, fun _ => ?_⟩
    all_goals
      unfold sizeofInt
      omega
  refine ⟨hlayout, ?_, hs, ?_⟩
  · have hdrop : (wireEntry key d).drop (2 * sizeofInt) = (key ++ [0]) ++ d.bytes := by
      simp [wireEntry, sizeofInt]
    have htake : (keySize (wireEntry key d)).toNat = (key ++ [0]).length := by
      rw [hk, List.length_append]
      rfl
    rw [keyField, hdrop, htake, List.take_left]
  · have hdrop : (wireEntry key d).drop (2 * sizeofInt + (key.length + 1)) = d.bytes := by
      have h : 2 * sizeofInt + (key.length + 1) = ([toByte (key.length + 1), 0, 0, 0] ++
          [toByte d.datasize, 0, 0, 0] ++ (key ++ [0])).length := by
        simp [sizeofInt]
        omega
      rw [wireEntry, h, List.drop_left]
    have hk' : (keySize (wireEntry key d)).toNat = key.length + 1 := by omega
    have htake : (dataSize (wireEntry key d)).toNat = d.bytes.length := by omega
    rw [dataField, hk', hdrop, htake, List.take_length]

/-- **The entry decoded from an encoded one**: its key and its bytes, and no value
at all when there are no bytes. -/
theorem decodedEntry_wireEntry {key : List UInt8} (hd : d.Readable) (hkey : key.length ≤ 126)
    (hsize : d.datasize ≤ 127) :
    decodedEntry (wireEntry key d) =
      ⟨key ++ [0], if d.datasize < 1 then none else some (DataT.ofBytes d.bytes)⟩ := by
  obtain ⟨-, hk, hs, hb⟩ := wireEntry_layout hd hkey hsize
  have hlen := hd.length_bytes
  unfold decodedEntry dataCreate2
  rw [hk, hs, hb]
  by_cases hpos : d.datasize < 1
  · simp [hpos, entryCreate]
  · simp [hpos, entryCreate, DataT.ofBytes, hlen]

/-- The decoded entry is the encoded one: the same string, the same number of the
same bytes. -/
structure SameEntry (e e' : EntryT) : Prop where
  terminated : Terminated e'.key
  key : e'.keyStr = e.keyStr
  value : ∃ d d', e.value = some d ∧ e'.value = some d' ∧ d'.datasize = d.datasize ∧
    d'.bytes = d.bytes

/-- **Decoding undoes encoding**: what `entry_to_buffer` returns is a block of the
size it returns, which `buffer_to_entry` takes for the same entry. -/
def RoundTrips (junk junk' : Nat → UInt8) (e : EntryT) : Prop :=
  ∃ size buf, entryToBuffer junk (some e) = .ok (size, some buf) ∧ (buf.length : Int) = size ∧
    ∃ e', bufferToEntry junk' (some buf) size = .ok (some e') ∧ SameEntry e e'

/-- **Encoded entries decode exactly within the range of a `char`**: the key has at
most 126 bytes and the value at most 127. -/
theorem entry_roundTrips_iff (e : EntryT) (d : DataT) (hkey : Terminated e.key)
    (hval : e.value = some d) (hd : d.Valid)
    (hfit : 2 * sizeofInt + (e.keyStr.length + 1) + d.datasize ≤ intMax)
    (junk junk' : Nat → UInt8) :
    RoundTrips junk junk' e ↔ e.keyStr.length ≤ 126 ∧ d.datasize ≤ 127 := by
  have henc := entryToBuffer_eq junk hkey hval hd.readable hfit
  have hpos := hd.size_pos
  have hlen := hd.length_bytes
  have hsize : 2 * sizeofInt + (e.keyStr.length + 1) + d.datasize ≠ -1 := by
    unfold sizeofInt
    omega
  constructor
  · rintro ⟨size, buf, hrun, -, e', hdec, hsame⟩
    rw [henc] at hrun
    obtain ⟨rfl, hbuf⟩ := Prod.mk.inj (Except.ok.inj hrun)
    obtain rfl := Option.some.inj hbuf
    have hlayout : EntryLayout (wireEntry e.keyStr d) := by
      by_contra h
      obtain ⟨f, hf⟩ := bufferToEntry_malformed junk' h hsize
      rw [hf] at hdec
      cases hdec
    rw [bufferToEntry_layout junk' hlayout hsize] at hdec
    obtain rfl := Option.some.inj (Except.ok.inj hdec)
    obtain ⟨rest, hrest⟩ := hsame.terminated.split
    obtain ⟨d₀, d', hd₀, hd', hds, -⟩ := hsame.value
    obtain rfl := Option.some.inj (hval.symm.trans hd₀)
    constructor
    · -- the key field has at most 127 bytes, and one of them is its NUL
      have hfield := hlayout.length_keyField
      have hchar := charVal_upper ((wireEntry e.keyStr d)[0]?.getD 0)
      have hcut := congrArg List.length hrest
      have hstr : (cstr (decodedEntry (wireEntry e.keyStr d)).key).length = e.keyStr.length :=
        congrArg List.length hsame.key
      rw [List.length_append, hstr, List.length_cons] at hcut
      change (keyField _).length = _ at hcut
      change charVal _ ≤ _ at hchar
      unfold keySize at hfield
      omega
    · have hchar : dataSize (wireEntry e.keyStr d) ≤ 127 := charVal_upper _
      unfold decodedEntry dataCreate2 at hd'
      simp only [entryCreate_value] at hd'
      split at hd'
      · cases hd'
      · obtain rfl := Option.some.inj hd'
        change dataSize _ = _ at hds
        omega
  · rintro ⟨hk, hs⟩
    obtain ⟨hlayout, -⟩ := wireEntry_layout hd.readable hk hs
    refine ⟨_, _, henc, by simp [wireEntry, sizeofInt]; omega, _,
      bufferToEntry_layout junk' hlayout hsize, ?_⟩
    rw [decodedEntry_wireEntry hd.readable hk hs, if_neg (by omega)]
    exact ⟨terminated_append_nul _ _, cstr_append_nul (cstr_no_nul e.key) [],
      d, _, hval, rfl, hlen, DataT.bytes_ofBytes _⟩

/-- The theorem at a short entry. -/
theorem entry_roundTrips_iff_short :
    RoundTrips (fun _ => 255) (fun _ => 255) ⟨[97, 0], some (.ofBytes [1, 2, 3])⟩ ↔
      (EntryT.keyStr ⟨[97, 0], some (.ofBytes [1, 2, 3])⟩).length ≤ 126 ∧
        (DataT.ofBytes [1, 2, 3]).datasize ≤ 127 :=
  entry_roundTrips_iff _ (.ofBytes [1, 2, 3]) (by decide) rfl (DataT.valid_ofBytes (by simp) (by decide))
    (by decide) _ _

/-- An entry with a value of 128 bytes. -/
def wideEntry : EntryT := ⟨[97, 0], some (.ofBytes (List.replicate 128 7))⟩

/-- **A value of 128 bytes does not come back**: its size is read as -128. -/
theorem wideEntry_not_roundTrips :
    Terminated wideEntry.key ∧ (DataT.ofBytes (List.replicate 128 7)).Valid ∧
      2 * sizeofInt + (wideEntry.keyStr.length + 1) + (128 : Int) ≤ intMax ∧
      ¬ RoundTrips (fun _ => 0) (fun _ => 0) wideEntry := by
  have hkey : Terminated wideEntry.key := by decide
  have hd : (DataT.ofBytes (List.replicate 128 7)).Valid := DataT.valid_ofBytes (by simp) (by simp [intMax])
  have hfit : 2 * sizeofInt + (wideEntry.keyStr.length + 1) + (128 : Int) ≤ intMax := by decide
  refine ⟨hkey, hd, hfit, ?_⟩
  rintro ⟨size, buf, hrun, -, e', hdec, -⟩
  rw [entryToBuffer_eq _ hkey rfl hd.readable hfit] at hrun
  obtain ⟨rfl, hbuf⟩ := Prod.mk.inj (Except.ok.inj hrun)
  obtain rfl := Option.some.inj hbuf
  have hneg : ¬ EntryLayout (wireEntry wideEntry.keyStr (.ofBytes (List.replicate 128 7))) := by
    decide +kernel
  obtain ⟨f, hf⟩ := bufferToEntry_malformed (fun _ => 0) hneg
    (show 2 * sizeofInt + (wideEntry.keyStr.length + 1) + (128 : Int) ≠ -1 by decide)
  exact absurd (hf.symm.trans hdec) nofun

end RoundTrip

end RemoteTable
