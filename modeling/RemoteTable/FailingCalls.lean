import RemoteTable.StubCalls

/-! # `read_all` and `write_all` when calls fail

Each call of `read` and `write` may fail, move less than was asked for, or find nothing to read.
Whatever they do, `write_all` comes to an end inside its block.  `read_all` stays inside its
blocks too, and what it comes back with is all there; but it need not come back.
-/
namespace RemoteTable
open CMem

/-! ## `read_all` -/

section Read
variable {outcomes : Nat → CMem.Outcome} {size : Int} {s : Incoming}

/-- **What a call of `read` comes to**: it waits for ever, or moves at most what it was asked
for. -/
theorem read_cases (s : Incoming) (o : CMem.Outcome) (count : Nat) :
    s.read o count = .error .diverges ∨
      ∃ got s', s.read o count = .ok (got, s') ∧ ∀ bytes, got = some bytes → bytes.length ≤ count := by
  unfold Incoming.read
  by_cases hmax : count > ssizeMax
  · rw [if_pos hmax]
    exact Or.inr ⟨none, s, rfl, by simp⟩
  rw [if_neg hmax]
  by_cases hzero : count = 0
  · rw [if_pos hzero]
    refine Or.inr ⟨some [], s, rfl, ?_⟩
    rintro _ ⟨⟩
    exact Nat.zero_le _
  rw [if_neg hzero]
  cases o with
  | fails => exact Or.inr ⟨none, s, rfl, by simp⟩
  | moves k =>
    by_cases hnil : s.bytes = []
    · simp only [if_pos hnil]
      cases s.tail with
      | eof =>
        refine Or.inr ⟨some [], s, rfl, ?_⟩
        rintro _ ⟨⟩
        exact Nat.zero_le _
      | broken => exact Or.inr ⟨none, s, rfl, by simp⟩
      | silent => exact Or.inl rfl
    · simp only [if_neg hnil]
      refine Or.inr ⟨_, _, rfl, ?_⟩
      rintro _ ⟨⟩
      have hpos := List.length_pos_iff.mpr hnil
      have hle := moved_le (k := k) (show 1 ≤ min count s.bytes.length by omega)
      rw [List.length_take]
      omega

/-- **The loop of `read_all`** does not come back, or comes back with as much as it says. -/
theorem readLoop_cases (hhi : size ≤ intMax) (fuel : Nat) :
    ∀ n (alreadyRead : Nat) (data : Option Block) (s : Incoming), (data = none → alreadyRead = 0) →
      (∀ b, data = some b → (b.length : Int) = size ∧ (alreadyRead : Int) ≤ size) →
      readLoop outcomes size fuel n alreadyRead data s = .error .diverges ∨
        ∃ code data' s', readLoop outcomes size fuel n alreadyRead data s = .ok (code, data', s') ∧
          (code ≠ -1 → Defined (slice (data'.getD []) 0 code)) := by
  induction fuel with
  | zero =>
    intro n alreadyRead data s _ _
    exact Or.inl rfl
  | succ fuel ih =>
    intro n alreadyRead data s hnone hsome
    rw [readLoop]
    by_cases hend : (alreadyRead : Int) = size
    · rw [if_pos hend]
      refine Or.inr ⟨_, _, _, rfl, fun _ => ⟨_, slice_inside (Int.natCast_nonneg _) le_rfl ?_⟩⟩
      cases data with
      | none =>
        rw [hnone rfl]
        rfl
      | some b =>
        have := (hsome b rfl).1
        rw [Option.getD_some]
        omega
    rw [if_neg hend]
    rcases read_cases s (outcomes n) (toSizeT (size - alreadyRead)) with hread | ⟨got, s', hread, hgot⟩
    · rw [hread]
      exact Or.inl rfl
    rw [hread, ok_bind]
    rcases got with _ | _ | ⟨c, got⟩
    · exact Or.inr ⟨_, _, _, rfl, fun h => absurd rfl h⟩
    · exact ih (n + 1) alreadyRead data s' hnone hsome
    · cases data with
      | none => exact Or.inr ⟨_, _, _, rfl, fun h => absurd rfl h⟩
      | some b =>
        -- what was read fits behind what is there
        obtain ⟨hlen, hle⟩ := hsome b rfl
        have hcount := toSizeT_of_nonneg (show 0 ≤ size - alreadyRead by omega) (by omega)
        have hfits := hgot _ rfl
        have hstore : store b (alreadyRead : Int).toNat (c :: got) =
            .ok (b.take alreadyRead ++ (c :: got) ++ b.drop (alreadyRead + (c :: got).length)) := by
          rw [Int.toNat_natCast]
          exact if_pos (by omega)
        simp only [hstore, ok_bind]
        rw [intAdd_natCast (by omega), ok_bind]
        refine ih (n + 1) _ _ s' (by simp) ?_
        rintro _ ⟨⟩
        simp only [List.length_append, List.length_take, List.length_drop]
        omega

/-- **`read_all`** does not come back, or comes back with as much as it says. -/
theorem readAll_cases (calls : Calls) (mem : Blocks) (s : Incoming) :
    readAll calls mem s = .error .diverges ∨ ∃ code data s', readAll calls mem s = .ok (code, data, s') ∧
      (code ≠ -1 → Defined (slice (data.getD []) 0 code)) := by
  rw [readAll]
  by_cases htmp : mem.tmp
  · rw [if_pos htmp]
    have hblock : malloc (mem.junk 0) unsignedSize = some ((List.range unsignedSize).map (mem.junk 0)) :=
      malloc_of_nonneg _ (by decide)
    rw [hblock, deref_some, ok_bind]
    rcases read_cases s calls.header unsignedSize with hread | ⟨got, s', hread, hgot⟩
    · rw [hread]
      exact Or.inl rfl
    have hfits : (got.getD []).length ≤ unsignedSize := by
      cases got with
      | none => exact Nat.zero_le _
      | some bytes => exact hgot bytes rfl
    have hstore := store_front ((List.range unsignedSize).map (mem.junk 0)) (got.getD []) (by simpa using hfits)
    have hlen : (got.getD [] ++ ((List.range unsignedSize).map (mem.junk 0)).drop
        (got.getD []).length).length = 4 := by
      simp only [List.length_append, List.length_drop, List.length_map, List.length_range]
      unfold unsignedSize at *
      omega
    simp only [hread, ok_bind, hstore, ntohl_eq hlen]
    obtain ⟨-, hhi⟩ := toInt32_range (netValue (got.getD [] ++
      ((List.range unsignedSize).map (mem.junk 0)).drop (got.getD []).length))
    refine readLoop_cases hhi _ 0 0 _ s' (fun _ => rfl) ?_
    intro b hb
    by_cases hdata : mem.data
    · rw [if_pos hdata] at hb
      unfold malloc at hb
      split at hb
      · cases hb
      · obtain rfl := Option.some.inj hb
        simp only [List.length_map, List.length_range, Nat.cast_zero]
        omega
    · rw [if_neg hdata] at hb
      cases hb
  · rw [if_neg htmp]
    exact Or.inr ⟨_, _, _, rfl, fun h => absurd rfl h⟩

/-- **`network_receive` fails to come back where `read_all` does**, and nowhere else. -/
theorem networkReceive_defined_iff {pb : Protobuf} {r : Round} {sock : ClientSocket} :
    Defined (networkReceive pb r sock) ↔ Defined (readAll r.reads r.blocks sock.incoming) := by
  rcases readAll_cases r.reads r.blocks sock.incoming with hread | ⟨code, data, s', hread, hslice⟩
  · rw [networkReceive, hread, error_bind]
    exact iff_of_false (not_defined_error _) (not_defined_error _)
  · refine iff_of_true ?_ ⟨_, hread⟩
    rw [networkReceive, hread, ok_bind]
    by_cases hcode : code = -1
    · simp only [if_pos hcode]
      exact defined_ok _
    · simp only [if_neg hcode]
      exact defined_bind (hslice hcode) fun _ => defined_ok _

end Read

/-! ## `write_all` -/

section Write
variable {outcomes : Nat → CMem.Outcome} {data : Block}

/-- A call of `write` inside the block: it fails, or moves some bytes. -/
theorem writeOut_cases (o : CMem.Outcome) (b : Block) (off : Nat) {count : Nat} (hpos : 1 ≤ count)
    (hmax : count ≤ ssizeMax) (hfit : off + count ≤ b.length) :
    writeOut b off o count = .ok none ∨
      ∃ out, writeOut b off o count = .ok (some out) ∧ 1 ≤ out.length ∧ out.length ≤ count := by
  cases o with
  | fails =>
    rw [writeOut, if_neg (by omega), if_neg (by omega)]
    exact Or.inl rfl
  | moves k =>
    have hle := moved_le (k := k) hpos
    have hone := moved_pos k count
    refine Or.inr ⟨_, writeOut_moves k b off hpos hmax hfit, ?_, ?_⟩
    all_goals
      rw [List.length_take, List.length_drop]
      omega

/-- **The loop of `write_all` comes to an end**, whatever its calls do. -/
theorem writeLoop_defined (hmax : (data.length : Int) ≤ intMax) (fuel : Nat) :
    ∀ n (sent : Nat), sent ≤ data.length → data.length - sent < fuel →
      Defined (writeLoop outcomes data data.length fuel n sent) := by
  induction fuel with
  | zero =>
    intro n sent _ hfuel
    omega
  | succ fuel ih =>
    intro n sent hsent hfuel
    rw [writeLoop]
    by_cases hend : (sent : Int) = data.length
    · rw [if_pos hend]
      exact defined_ok _
    have hcount : toSizeT ((data.length : Int) - sent) = data.length - sent :=
      toSizeT_natCast (by omega) (by omega)
    rw [if_neg hend, hcount]
    rcases writeOut_cases (outcomes n) data sent (show 1 ≤ data.length - sent by omega)
      (by unfold ssizeMax; unfold intMax at hmax; omega) (by omega) with hout | ⟨out, hout, hone, hle⟩
    · rw [hout, ok_bind]
      exact defined_ok _
    · rw [hout, ok_bind]
      simp only
      rw [intAdd_natCast (by omega), ok_bind]
      exact defined_bind (ih (n + 1) _ (by omega) (by omega)) fun _ => defined_ok _

theorem writeAll_defined (calls : Calls) (hmax : (data.length : Int) ≤ intMax) :
    Defined (writeAll calls data data.length) := by
  have hheader : Defined (writeOut (htonl data.length) 0 calls.header unsignedSize) := by
    rcases writeOut_cases calls.header (htonl data.length) 0 (show 1 ≤ unsignedSize by decide)
      (by decide) (by rw [length_htonl]; decide) with hout | ⟨_, hout, -⟩
    · exact ⟨_, hout⟩
    · exact ⟨_, hout⟩
  rw [writeAll]
  refine defined_bind hheader fun _ => defined_bind ?_ fun _ => defined_ok _
  rw [Int.toNat_natCast]
  exact writeLoop_defined hmax (data.length + 1) 0 0 (Nat.zero_le _) (by omega)

end Write

/-! ## `network_send` -/

/-- What protobuf-c promises: a message whose buffer can be read is packed into as many bytes
as were announced, and the buffer of one that it unpacks has exactly the bytes it says. -/
structure Protobuf.Promises (pb : Protobuf) : Prop where
  packs : ∀ {msg bytes}, msg.buffer.sent = .ok bytes → ∃ body, pb.pack msg = .ok body
  size : ∀ {msg body}, pb.pack msg = .ok body → body.length = pb.packedSize msg
  delivers : ∀ {body msg}, pb.unpack body = some msg → msg.buffer.Delivered

theorem setField_delivered {fields : List (Nat × Proto3.Value)} :
    ∀ {start msg : MessageT}, start.buffer.Delivered → fields.foldlM MessageT.setField start = some msg →
      msg.buffer.Delivered := by
  induction fields with
  | nil =>
    intro start msg hstart h
    obtain rfl := Option.some.inj h
    exact hstart
  | cons field fields ih =>
    intro start msg hstart h
    obtain ⟨next, hnext, h⟩ := Option.bind_eq_some_iff.mp h
    refine ih ?_ h
    unfold MessageT.setField at hnext
    split at hnext
    · obtain rfl := Option.some.inj hnext
      exact hstart
    · obtain rfl := Option.some.inj hnext
      exact hstart
    · rename_i bytes
      obtain rfl := Option.some.inj hnext
      by_cases hnil : bytes = []
      · subst hnil
        exact Or.inl ⟨rfl, rfl⟩
      · exact Or.inr ⟨bytes, hnil, if_neg hnil, rfl⟩
    · split at hnext
      · cases hnext
      · obtain rfl := Option.some.inj hnext
        exact hstart

/-- **The messages of `sdmessage.proto` in proto3** keep these promises. -/
theorem proto3Message_promises : proto3Message.Promises where
  packs := proto3Message_roundTrips.packs
  size := proto3Message_roundTrips.size
  delivers := by
    intro body msg h
    obtain ⟨fields, -, h⟩ := Option.bind_eq_some_iff.mp h
    exact setField_delivered (Or.inl ⟨rfl, rfl⟩) h

/-- The length of the message is an `int`, or there is no block for it anyway. -/
def SendFits (pb : Protobuf) (r : Round) (msg : MessageT) : Prop :=
  r.sendBlock = true → 0 ≤ toInt32 (pb.packedSize msg) → (pb.packedSize msg : Int) ≤ intMax

/-- **`network_send` writes behind its block** exactly when the length of the message is cut to
a smaller `int` that `malloc` grants. -/
theorem networkSend_defined_iff {pb : Protobuf} (hpb : pb.Promises) {r : Round} {sock : ClientSocket}
    {msg : MessageT} (hsent : Defined msg.buffer.sent) :
    Defined (networkSend pb r sock msg) ↔ SendFits pb r msg := by
  obtain ⟨bytes, hsent⟩ := hsent
  obtain ⟨body, hpack⟩ := hpb.packs hsent
  have hsize := hpb.size hpack
  by_cases hgrant : r.sendBlock = true ∧ 0 ≤ toInt32 (pb.packedSize msg)
  · obtain ⟨hblock, hlen⟩ := hgrant
    simp only [networkSend, if_pos hblock, malloc_of_nonneg _ hlen, hpack, ok_bind]
    by_cases hfits : (pb.packedSize msg : Int) ≤ intMax
    · refine iff_of_true ?_ fun _ _ => hfits
      have hint : toInt32 (pb.packedSize msg) = body.length := by
        rw [← hsize]
        exact toInt32_of_nonneg (by omega) (by omega)
      rw [hint, Int.toNat_natCast, store_fresh, ok_bind]
      refine defined_bind (writeAll_defined _ (by omega)) fun p => ?_
      by_cases hcode : p.1 = -1
      · simp only [if_pos hcode]
        exact defined_ok _
      · simp only [if_neg hcode]
        exact defined_ok _
    · refine iff_of_false ?_ fun h => hfits (h hblock hlen)
      have hle := (toInt32_range (pb.packedSize msg)).2
      have hstore : store ((List.range (toInt32 (pb.packedSize msg)).toNat).map r.sendJunk) 0 body =
          .error .outOfBounds := by
        refine if_neg ?_
        simp only [List.length_map, List.length_range]
        omega
      rw [hstore, error_bind]
      exact not_defined_error _
  · refine iff_of_true ?_ fun hblock hlen => absurd ⟨hblock, hlen⟩ hgrant
    have hnull : (if r.sendBlock then malloc r.sendJunk (toInt32 (pb.packedSize msg)) else none) = none := by
      by_cases hblock : r.sendBlock = true
      · rw [if_pos hblock, malloc_of_neg _ (Int.not_le.mp fun hlen => hgrant ⟨hblock, hlen⟩)]
      · rw [if_neg hblock]
    simp only [networkSend, hnull]
    exact defined_ok _

end RemoteTable
