import RemoteTable.KeyListing
import RemoteTable.ReplyBytes

/-! # The values of the replies

A `GET` reply carries its value behind a length, a `SIZE` reply is a number.  Both numbers
pass through one byte.  `data_to_buffer` stores the length through a `char *` and
`buffer_to_data` reads it back as a signed `char`; `invoke` stores the size through a
`uint8_t *` and `rtable_size` reads it back unsigned.  So the client sees what the server
meant up to 127 bytes, and up to 255 entries.
-/
namespace RemoteTable
open CMem Assoc

/-- A message that sends its whole block. -/
theorem carried_all (opcode cType : Int) (bytes : Block) {resp : MessageT} :
    Carried ⟨opcode, cType, ⟨bytes.length, some bytes⟩⟩ resp ↔
      resp = MessageT.carrying ⟨opcode, cType, ⟨bytes.length, some bytes⟩⟩ bytes :=
  carried_iff (sent_all bytes)

/-! ## `GET` -/

/-- **Decoding undoes encoding**: what `data_to_buffer` returns is a block of the size it
returns, from which `buffer_to_data` makes as many of the same bytes. -/
def ValueRoundTrips (junk junk' : Nat → UInt8) (d : DataT) : Prop :=
  ∃ size buf, dataToBuffer junk (some d) = .ok (size, some buf) ∧ (buf.length : Int) = size ∧
    ∃ d', bufferToData junk' (some buf) size = .ok (some d') ∧ d'.datasize = d.datasize ∧
      d'.bytes = d.bytes

/-- **The value of a `GET` reaches the client**: `invoke` returns, and from any response that
carries its reply `rtable_get` makes as many of the same bytes. -/
def GetTold (env : Env) (srv : Server) (msg : MessageT) (d : DataT) : Prop :=
  ∃ code srv' reply, invoke env srv msg = .ok (code, srv', reply) ∧
    ∀ junk resp, Carried reply resp → ∃ d', rtableGet junk (some resp) = .ok (some d') ∧
      d'.datasize = d.datasize ∧ d'.bytes = d.bytes

section Get
variable {d : DataT}

theorem length_wireData (junk : Nat → UInt8) (hd : d.Readable) :
    ((wireData junk d).length : Int) = sizeofInt + d.datasize := by
  have := hd.length_bytes
  simp only [wireData, List.length_cons, sizeofInt]
  omega

/-- Up to 127 bytes the length reads back. -/
theorem wireData_layout (junk : Nat → UInt8) (hd : d.Readable) (hsmall : d.datasize ≤ 127) :
    ValueLayout (wireData junk d) ∧ valueSize (wireData junk d) = d.datasize ∧
      valueField (wireData junk d) = d.bytes := by
  have hsize : valueSize (wireData junk d) = d.datasize := charVal_toByte hd.size_nonneg hsmall
  have hlen := length_wireData junk hd
  have hnonneg := hd.size_nonneg
  have hbytes := hd.length_bytes
  refine ⟨⟨by unfold sizeofInt at hlen; omega, by omega, fun _ => by omega⟩, hsize, ?_⟩
  have htake : (valueSize (wireData junk d)).toNat = d.bytes.length := by omega
  rw [valueField, htake]
  exact List.take_length

/-- Up to 127 bytes the decoder returns the value. -/
theorem bufferToData_wireData (junk junk' : Nat → UInt8) (hd : d.Valid) (hsmall : d.datasize ≤ 127)
    {size : Int} (hsize : size ≠ -1) :
    ∃ d', bufferToData junk' (some (wireData junk d)) size = .ok (some d') ∧
      d'.datasize = d.datasize ∧ d'.bytes = d.bytes := by
  obtain ⟨hlayout, hvalue, hfield⟩ := wireData_layout junk hd.readable hsmall
  have hpos := hd.size_pos
  refine ⟨⟨d.datasize, some d.bytes⟩, ?_, rfl, ?_⟩
  · rw [bufferToData_layout junk' hlayout hsize, hvalue, hfield, dataCreate2, if_neg]
    simp only [reduceCtorEq, or_false]
    omega
  · have hlen := hd.length_bytes
    rw [DataT.bytes, Option.getD_some, List.take_of_length_le]
    simp only
    omega

/-- What the server sends for a value that can be encoded. -/
theorem getTold_of_present {env : Env} {srv : Server} {msg : MessageT} {key : Block}
    (hop : msg.opcode = opGet) (hkey : msg.buffer.data = some key) (hd : d.Valid)
    (hfit : sizeofInt + d.datasize ≤ intMax)
    (hget : tableGet (env.junk 0) srv.gTable key = .ok (some d)) :
    GetTold env srv msg d ↔ ∀ junk', ∃ d', bufferToData junk' (some (wireData (env.junk 1) d))
      (sizeofInt + d.datasize) = .ok (some d') ∧ d'.datasize = d.datasize ∧ d'.bytes = d.bytes := by
  have hpos := hd.size_pos
  have hdisp : dispatch env srv msg = _ := dispatch_get hop
  rw [invokeGet_present hkey hd.readable hget hfit, ok_bind] at hdisp
  obtain ⟨code, stats, hrun⟩ := invoke_of_dispatch hdisp
  have hlen := length_wireData (env.junk 1) hd.readable
  have hne : wireData (env.junk 1) d ≠ [] := List.cons_ne_nil _ _
  set wire := wireData (env.junk 1) d
  have hint : toInt32 wire.length = sizeofInt + d.datasize := by
    rw [hlen, toInt32_of_nonneg (by omega) hfit]
  have hstub : ∀ {junk' : Nat → UInt8} {resp : MessageT},
      Carried ⟨msg.opcode + 1, ctValue, ⟨wire.length, some wire⟩⟩ resp →
      rtableGet junk' (some resp) = bufferToData junk' (some wire) (sizeofInt + d.datasize) := by
    intro junk' resp hresp
    rw [(carried_all _ _ wire).mp hresp]
    simp only [rtableGet, MessageT.carrying, hop, if_neg hne, hint]
    exact if_neg (by decide)
  constructor
  · rintro ⟨code', srv', reply, hrun', htold⟩ junk'
    obtain ⟨-, -, rfl⟩ : code = code' ∧ _ = srv' ∧ _ = reply := by
      simpa using Except.ok.inj (hrun.symm.trans hrun')
    have hcarried := (carried_all (msg.opcode + 1) ctValue wire).mpr rfl
    rw [← hstub hcarried]
    exact htold junk' _ hcarried
  · intro hdec
    refine ⟨code, _, _, hrun, fun junk' resp hresp => ?_⟩
    rw [hstub hresp]
    exact hdec junk'

/-- **A value comes back exactly when it has at most 127 bytes**, from its encoding and from
the server, whatever the fresh blocks hold. -/
theorem value_roundTrips_iff (d : DataT) (hd : d.Valid) (hfit : sizeofInt + d.datasize ≤ intMax) :
    (∀ junk junk', ValueRoundTrips junk junk' d ↔ d.datasize ≤ 127) ∧
      ∀ env srv msg key, msg.opcode = opGet → msg.buffer.data = some key →
        tableGet (env.junk 0) srv.gTable key = .ok (some d) →
        (GetTold env srv msg d ↔ d.datasize ≤ 127) := by
  have hpos := hd.size_pos
  have hsize : sizeofInt + d.datasize ≠ -1 := by
    unfold sizeofInt
    omega
  have hdec : ∀ junk junk', (∃ d', bufferToData junk' (some (wireData junk d))
      (sizeofInt + d.datasize) = .ok (some d') ∧ d'.datasize = d.datasize ∧ d'.bytes = d.bytes) ↔
      d.datasize ≤ 127 := by
    intro junk junk'
    constructor
    · rintro ⟨d', hrun, hds, -⟩
      rw [← hds]
      exact bufferToData_small hrun
    · exact fun hsmall => bufferToData_wireData junk junk' hd hsmall hsize
  refine ⟨fun junk junk' => ?_, fun env srv msg key hop hkey hget => ?_⟩
  · rw [← hdec junk junk']
    constructor
    · rintro ⟨size, buf, henc, -, hback⟩
      rw [dataToBuffer_eq junk hd.readable hfit] at henc
      obtain ⟨rfl, hbuf⟩ := Prod.mk.inj (Except.ok.inj henc)
      obtain rfl := Option.some.inj hbuf
      exact hback
    · intro hback
      exact ⟨_, _, dataToBuffer_eq junk hd.readable hfit, length_wireData junk hd.readable, hback⟩
  · rw [getTold_of_present hop hkey hd hfit hget]
    constructor
    · exact fun h => (hdec (env.junk 1) fun _ => 0).mp (h _)
    · exact fun hsmall junk' => (hdec (env.junk 1) junk').mpr hsmall

/-- The theorem at a value of three bytes. -/
theorem value_roundTrips_iff_short :
    (∀ junk junk', ValueRoundTrips junk junk' (.ofBytes [1, 2, 3]) ↔
        (DataT.ofBytes [1, 2, 3]).datasize ≤ 127) ∧
      ∀ env srv msg key, msg.opcode = opGet → msg.buffer.data = some key →
        tableGet (env.junk 0) srv.gTable key = .ok (some (.ofBytes [1, 2, 3])) →
        (GetTold env srv msg (.ofBytes [1, 2, 3]) ↔ (DataT.ofBytes [1, 2, 3]).datasize ≤ 127) :=
  value_roundTrips_iff (.ofBytes [1, 2, 3]) (DataT.valid_ofBytes (by simp) (by decide)) (by decide)

/-- **A value of 128 bytes does not come back**: its length is read as -128. -/
theorem wideValue_not_roundTrips :
    (DataT.ofBytes (List.replicate 128 7)).Valid ∧
      sizeofInt + (DataT.ofBytes (List.replicate 128 7)).datasize ≤ intMax ∧
      ¬ ValueRoundTrips (fun _ => 0) (fun _ => 0) (.ofBytes (List.replicate 128 7)) := by
  refine ⟨DataT.valid_ofBytes (by simp) (by simp [intMax]), by simp [DataT.ofBytes, sizeofInt, intMax], ?_⟩
  rintro ⟨size, buf, -, -, d', hrun, hsize, -⟩
  have hsmall := bufferToData_small hrun
  rw [hsize] at hsmall
  simp [DataT.ofBytes] at hsmall

end Get

/-! ## `SIZE` -/

/-- **The remote size is the real size**: `invoke` returns, and from any response that
carries its reply `rtable_size` makes what `table_size` answers. -/
def SizeTold (env : Env) (srv : Server) (msg : MessageT) : Prop :=
  ∃ code srv' reply, invoke env srv msg = .ok (code, srv', reply) ∧
    ∀ resp, Carried reply resp → rtableSize (some resp) = tableSize srv.gTable

section Size
variable {srv : Server} {buckets : Buckets} {msg : MessageT}

/-- One byte holds a number up to 255. -/
theorem toNat_toByte_eq_iff (n : Nat) : (((toByte n).toNat : Int) = n) ↔ n ≤ 255 := by
  rw [toNat_toByte]
  omega

/-- **The remote size is the real size up to 255 entries**, whatever the block of the reply
held before. -/
theorem size_told_iff (env : Env) (srv : Server) (buckets : Buckets) (hs : Shape srv.gTable buckets)
    (hle : ((entries buckets).length : Int) ≤ intMax) (msg : MessageT) (hop : msg.opcode = opSize) :
    SizeTold env srv msg ↔ (entries buckets).length ≤ 255 := by
  have hdisp : dispatch env srv msg = _ := dispatch_size hop
  rw [invokeSize_eq hs hle, ok_bind] at hdisp
  obtain ⟨code, stats, hrun⟩ := invoke_of_dispatch hdisp
  have hstub : ∀ {resp : MessageT}, Carried ⟨msg.opcode + 1, ctResult,
      ⟨4, some (wireSize (env.junk 0) (entries buckets).length)⟩⟩ resp →
      rtableSize (some resp) = .ok ((toByte (entries buckets).length).toNat : Int) := by
    intro resp hresp
    rw [(carried_all _ _ (wireSize (env.junk 0) _)).mp hresp]
    rfl
  rw [← toNat_toByte_eq_iff]
  constructor
  · rintro ⟨code', srv', reply, hrun', htold⟩
    obtain ⟨-, -, rfl⟩ : code = code' ∧ _ = srv' ∧ _ = reply := by
      simpa using Except.ok.inj (hrun.symm.trans hrun')
    have hcarried := (carried_all (msg.opcode + 1) ctResult
      (wireSize (env.junk 0) (entries buckets).length)).mpr rfl
    have hsize := htold _ hcarried
    rw [hstub hcarried, tableSize_eq hs, if_pos hle] at hsize
    exact Except.ok.inj hsize
  · intro hbyte
    refine ⟨code, _, _, hrun, fun resp hresp => ?_⟩
    rw [hstub hresp, tableSize_eq hs, if_pos hle, hbyte]

/-- The theorem at a table of one entry. -/
theorem size_told_iff_one : SizeTold (.calm fun _ _ => 0) (oneList [entryA]) sizeRequest :=
  (size_told_iff _ _ [[(0, entryA)]] oneList_entryA_rep.shape (by decide) sizeRequest rfl).mpr (by decide)

/-- **256 entries are counted as none.** -/
theorem crowd_not_told :
    Shape (oneList (numberedEntries 256)).gTable [(numberedEntries 256).mapIdx Prod.mk] ∧
      Distinct EntryT.keyStr (numberedEntries 256) ∧
      ¬ SizeTold (.calm fun _ _ => 0) (oneList (numberedEntries 256)) sizeRequest := by
  have hs := numberedEntries_shape 256
  have hlen := length_numberedEntries 256
  refine ⟨hs, numberedEntries_distinct 256, ?_⟩
  rintro ⟨code, srv', reply, hrun, htold⟩
  have hle : ((entries [(numberedEntries 256).mapIdx Prod.mk]).length : Int) ≤ intMax := by
    rw [hlen]
    decide
  have hdisp : dispatch (.calm fun _ _ => 0) (oneList (numberedEntries 256)) sizeRequest = _ :=
    dispatch_size rfl
  rw [invokeSize_eq hs hle, ok_bind, hlen] at hdisp
  obtain ⟨code', stats, hrun'⟩ := invoke_of_dispatch hdisp
  obtain ⟨-, -, rfl⟩ : code' = code ∧ _ = srv' ∧ _ = reply := by
    simpa using Except.ok.inj (hrun'.symm.trans hrun)
  have hsize := htold _ ((carried_all (opSize + 1) ctResult [0, 0, 0, 0]).mpr rfl)
  rw [tableSize_eq hs, if_pos hle, hlen] at hsize
  exact absurd (Except.ok.inj hsize) (by decide)

end Size
end RemoteTable
