import RemoteTable.KeyListing
import RemoteTable.ReplyBytes

/-! # The printed table, as it is meant

`tableText` is the text the reply to a `PRINT` is to be: for every list that is not empty
its entries, each as key, `->` and data, with a space between them and a newline behind
them.

`list_to_string` makes exactly that of a list.  `strapp` and the length of the reply read
it as a C string: data with a NUL in them end the list there.
-/
namespace RemoteTable
open CMem

/-- An entry: key, `->`, data. -/
def entryText (e : EntryT) : List UInt8 := e.keyStr ++ [45, 62] ++ e.bytes

/-- A list: its entries with a space between them, and a newline. -/
def listText (b : Nodes) : List UInt8 :=
  if b = [] then [] else [32].intercalate (b.map fun x => entryText x.2) ++ [10]

/-- The table: its lists in order. -/
def tableText (buckets : Buckets) : List UInt8 := (buckets.map listText).flatten

/-- **The printed table is complete**: the reply to the request is the text, and one NUL. -/
def PrintedComplete (env : Env) (srv : Server) (buckets : Buckets) (msg : MessageT) : Prop :=
  replyBytes env srv msg = .ok (tableText buckets ++ [0])

/-! ## A list -/

/-- With a space behind every entry. -/
theorem renderNodes_eq (x : Addr × EntryT) (b : Nodes) :
    renderNodes (x :: b) = [32].intercalate ((x :: b).map fun x => entryText x.2) ++ [32] := by
  induction b generalizing x with
  | nil => simp [renderEntry, entryText, List.intercalate]
  | cons y b ih =>
    rw [renderNodes_cons, ih]
    simp [renderEntry, entryText, List.intercalate]

/-- **`list_to_string` returns the text of the list**, and a NUL. -/
theorem printed_eq (b : Nodes) : printed b = listText b ++ [0] := by
  cases b with
  | nil => rfl
  | cons x b =>
    rw [printed, if_neg (List.cons_ne_nil x b), listText, if_neg (List.cons_ne_nil x b),
      renderNodes_eq, List.dropLast_concat, List.append_assoc]
    rfl

/-- A NUL in the text of a list is one in the data of an entry. -/
theorem nul_mem_listText {b : Nodes} : (0 : UInt8) ∈ listText b ↔ ∃ x ∈ b, (0 : UInt8) ∈ x.2.bytes := by
  cases b with
  | nil => simp [listText]
  | cons x b =>
    have hentry : ∀ e : EntryT, (0 : UInt8) ∈ renderEntry e ↔ (0 : UInt8) ∈ e.bytes := by
      intro e
      have hkey : (0 : UInt8) ∉ e.keyStr := cstr_no_nul e.key
      simp [renderEntry, hkey]
    have hnodes : (0 : UInt8) ∈ renderNodes (x :: b) ↔ ∃ y ∈ x :: b, (0 : UInt8) ∈ y.2.bytes := by
      simp only [renderNodes, List.mem_flatten, List.mem_map, exists_exists_and_eq_and, hentry]
    rw [← hnodes, renderNodes_eq, listText, if_neg (List.cons_ne_nil x b)]
    simp

/-! ## Strings cut at their first NUL -/

theorem cstr_eq_self_iff {s : Block} : cstr s = s ↔ (0 : UInt8) ∉ s := by
  simp only [cstr, List.takeWhile_eq_self_iff, decide_eq_true_eq]
  exact ⟨fun h h0 => h 0 h0 rfl, fun h c hc h0 => h (h0 ▸ hc)⟩

theorem length_cstr_le (s : Block) : (cstr s).length ≤ s.length :=
  (List.takeWhile_prefix _).length_le

theorem length_flatMap_cstr_le (ts : List Block) : (ts.flatMap cstr).length ≤ ts.flatten.length := by
  induction ts with
  | nil => exact Nat.le_refl _
  | cons s ts ih =>
    have hs := length_cstr_le s
    simp only [List.flatMap_cons, List.flatten_cons, List.length_append]
    omega

/-- **Strings in a row are all whole exactly when there is no NUL in them.** -/
theorem flatMap_cstr_eq_iff {ts : List Block} :
    ts.flatMap cstr = ts.flatten ↔ ∀ s ∈ ts, (0 : UInt8) ∉ s := by
  induction ts with
  | nil => simp
  | cons s ts ih =>
    rw [List.flatMap_cons, List.flatten_cons, List.forall_mem_cons, ← ih, ← cstr_eq_self_iff]
    constructor
    · intro h
      -- neither part can make up for what the other one lacks
      have hs := length_cstr_le s
      have hrest := length_flatMap_cstr_le ts
      have hlen := congrArg List.length h
      rw [List.length_append, List.length_append] at hlen
      exact List.append_inj h (by omega)
    · rintro ⟨hs, hts⟩
      rw [hs, hts]

/-! ## The table -/

/-- No entry of the table has a NUL in its data. -/
def NulFree (buckets : Buckets) : Prop := ∀ e ∈ entries buckets, (0 : UInt8) ∉ e.bytes

theorem nulFree_iff {buckets : Buckets} :
    NulFree buckets ↔ ∀ b ∈ buckets, (0 : UInt8) ∉ listText b := by
  simp only [NulFree, nul_mem_listText, entries, List.mem_map, List.mem_flatten]
  constructor
  · rintro h b hb ⟨x, hx, h0⟩
    exact h x.2 ⟨x, ⟨b, hb, hx⟩, rfl⟩ h0
  · rintro h e ⟨x, ⟨b, hb, hx⟩, rfl⟩ h0
    exact h b hb ⟨x, hx, h0⟩

/-- The printed table is what the texts of the lists leave as strings. -/
theorem printedTable_eq (buckets : Buckets) :
    printedTable buckets = (buckets.map listText).flatMap cstr := by
  rw [printedTable, List.flatMap_map, List.flatMap_def]
  refine congrArg List.flatten (List.map_congr_left fun b _ => ?_)
  rw [printed_eq]
  exact cstr_append (listText b) []

/-- **All lists come out whole exactly when no data have a NUL in them.** -/
theorem printedTable_whole_iff (buckets : Buckets) :
    printedTable buckets = tableText buckets ↔ NulFree buckets := by
  rw [printedTable_eq, tableText, flatMap_cstr_eq_iff, List.forall_mem_map, nulFree_iff]

/-- **The printed table is complete exactly when no data have a NUL in them**: for every
table with at least one list and every entry a value. -/
theorem printed_complete_iff (env : Env) (srv : Server) (buckets : Buckets)
    (hs : Shape srv.gTable buckets) (hv : EntriesValid buckets) (hn : 1 ≤ srv.gTable.n)
    (msg : MessageT) (hop : msg.opcode = opPrint) :
    PrintedComplete env srv buckets msg ↔ NulFree buckets := by
  rw [← printedTable_whole_iff, PrintedComplete, print_reply hs hv hop hn]
  exact ⟨fun h => List.append_cancel_right (Except.ok.inj h), fun h => by rw [h]⟩

/-- A `PRINT` request. -/
def printRequest : MessageT := ⟨opPrint, ctNone, ⟨0, none⟩⟩

/-- Entries that hold copies of bytes can be printed. -/
theorem oneList_valid {es : List EntryT} (hes : ∀ e ∈ es, Terminated e.key ∧ e.Stored) :
    EntriesValid [es.mapIdx Prod.mk] := by
  intro e he
  rw [entries_oneList] at he
  obtain ⟨hkey, bs, hbs, hval⟩ := hes e he
  exact ⟨hkey, _, hval, hbs⟩

/-- The value that consists of one byte is stored as it is. -/
theorem stored_byte (key : Block) (c : UInt8) : EntryT.Stored ⟨key, some (.ofBytes [c])⟩ :=
  ⟨[c], DataT.valid_ofBytes (by simp) (by simp [intMax]), rfl⟩

/-- The theorem for two entries in one list. -/
theorem printed_complete_iff_pair :
    PrintedComplete (.calm fun _ _ => 0)
        (oneList [⟨[97, 0], some (.ofBytes [49])⟩, ⟨[98, 0], some (.ofBytes [50])⟩])
        [List.mapIdx Prod.mk [⟨[97, 0], some (.ofBytes [49])⟩, ⟨[98, 0], some (.ofBytes [50])⟩]]
        printRequest ↔
      NulFree [List.mapIdx Prod.mk [⟨[97, 0], some (.ofBytes [49])⟩, ⟨[98, 0], some (.ofBytes [50])⟩]] :=
  printed_complete_iff _ _ _ (oneList_shape (by decide))
    (oneList_valid (by simp [stored_byte, Terminated])) (by decide) _ rfl

/-- **Data of one zero byte are cut off**, and the newline behind them. -/
theorem zeroByte_not_complete :
    Shape (oneList [⟨[97, 0], some (.ofBytes [0])⟩]).gTable
        [List.mapIdx Prod.mk [⟨[97, 0], some (.ofBytes [0])⟩]] ∧
      EntriesValid [List.mapIdx Prod.mk [⟨[97, 0], some (.ofBytes [0])⟩]] ∧
      ¬ PrintedComplete (.calm fun _ _ => 0) (oneList [⟨[97, 0], some (.ofBytes [0])⟩])
        [List.mapIdx Prod.mk [⟨[97, 0], some (.ofBytes [0])⟩]] printRequest := by
  have hs : Shape (oneList [⟨[97, 0], some (.ofBytes [0])⟩]).gTable
      [List.mapIdx Prod.mk [⟨[97, 0], some (.ofBytes [0])⟩]] := oneList_shape (by decide)
  have hv : EntriesValid [List.mapIdx Prod.mk [⟨[97, 0], some (.ofBytes [0])⟩]] :=
    oneList_valid (by simp [stored_byte, Terminated])
  refine ⟨hs, hv, fun hprint => ?_⟩
  have hwhole := Except.ok.inj ((print_reply hs hv rfl (by decide)).symm.trans hprint)
  exact absurd (List.append_cancel_right hwhole) (by decide +kernel)

end RemoteTable
