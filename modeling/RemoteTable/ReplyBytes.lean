import RemoteTable.RequestSafety

/-! # What the bytes of a reply depend on

A reply leaks nothing when the bytes the peer receives are the same whatever the
blocks of `malloc` held before.  `GETKEYS` and `PRINT` fill their blocks to the
last byte they send.  `SIZE` and `GET` send a header of `sizeof(int)` bytes and
write one of them, so the other three go out as they were.
-/
namespace RemoteTable
open CMem

/-- The bytes the peer receives. -/
def replyBytes (env : Env) (srv : Server) (msg : MessageT) : Exec Block := do
  let (_, _, reply) ← invoke env srv msg
  reply.buffer.sent

/-- **The reply is determined by the request and the table**: the same bytes for
all contents of fresh blocks. -/
def ReplyDetermined (env : Env) (srv : Server) (msg : MessageT) : Prop :=
  ∃ bytes, ∀ junk, replyBytes { env with junk := junk } srv msg = .ok bytes

/-- The opcodes whose reply carries data of the table. -/
def Carries (opcode : Int) : Prop := opcode ∈ [opSize, opGet, opGetKeys, opPrint]

section Reply
variable {env : Env} {srv : Server} {buckets : Buckets} {msg : MessageT}

theorem replyBytes_of_dispatch {srv' : Server} {reply : MessageT}
    (h : dispatch env srv msg = .ok (some (srv', reply))) :
    replyBytes env srv msg = reply.buffer.sent := by
  obtain ⟨code, stats, hrun⟩ := invoke_of_dispatch h
  rw [replyBytes, hrun, ok_bind]

theorem getKeys_reply (hs : Shape srv.gTable buckets) (h : msg.opcode = opGetKeys)
    (hlt : ((entries buckets).length : Int) < intMax) :
    replyBytes env srv msg = .ok (keyWire (entries buckets)) := by
  have hdisp : dispatch env srv msg = _ := dispatch_getKeys h
  rw [invokeGetKeys_eq hs hlt, ok_bind] at hdisp
  rw [replyBytes_of_dispatch hdisp, sent_all]

theorem print_reply (hs : Shape srv.gTable buckets) (hv : EntriesValid buckets)
    (h : msg.opcode = opPrint) (hn : 1 ≤ srv.gTable.n) :
    replyBytes env srv msg = .ok (printedTable buckets ++ [0]) := by
  have hdisp : dispatch env srv msg = _ := dispatch_print h
  rw [invokePrint_eq hs hv hn, ok_bind] at hdisp
  rw [replyBytes_of_dispatch hdisp]
  have hdup := (tableString_terminated buckets).strdup
  rw [strdup, (tableString_terminated buckets).strlen, ok_bind, cstr_tableString] at hdup
  exact hdup

theorem size_reply (hs : Shape srv.gTable buckets) (h : msg.opcode = opSize)
    (hle : ((entries buckets).length : Int) ≤ intMax) :
    replyBytes env srv msg = .ok (wireSize (env.junk 0) (entries buckets).length) := by
  have hdisp : dispatch env srv msg = _ := dispatch_size h
  rw [invokeSize_eq hs hle, ok_bind] at hdisp
  rw [replyBytes_of_dispatch hdisp]
  exact sent_all (wireSize (env.junk 0) _)

/-- A `GET` of an absent key sends nothing. -/
theorem get_reply_absent {key : Block} (h : msg.opcode = opGet) (hkey : msg.buffer.data = some key)
    (hget : ∀ junk, tableGet junk srv.gTable key = .ok none) :
    replyBytes env srv msg = .ok [] := by
  have hdisp : dispatch env srv msg = _ := dispatch_get h
  rw [invokeGet_absent hkey (hget _), ok_bind] at hdisp
  exact replyBytes_of_dispatch hdisp

/-- A `GET` of a present key sends the header with its three stale bytes, or more
bytes than there are. -/
theorem get_reply_present {key bs : Block} (h : msg.opcode = opGet)
    (hkey : msg.buffer.data = some key) (hbs : (DataT.ofBytes bs).Valid)
    (hget : ∀ junk, tableGet junk srv.gTable key = .ok (some (DataT.ofBytes bs))) :
    replyBytes env srv msg = if sizeofInt + (bs.length : Int) ≤ intMax
      then .ok (wireData (env.junk 1) (DataT.ofBytes bs)) else .error .outOfBounds := by
  have hdisp : dispatch env srv msg = _ := dispatch_get h
  by_cases hfit : sizeofInt + (bs.length : Int) ≤ intMax
  · rw [invokeGet_present hkey hbs.readable (hget _) hfit, ok_bind] at hdisp
    rw [if_pos hfit, replyBytes_of_dispatch hdisp, sent_all]
  · rw [invokeGet_large hkey hbs (hget _) hfit, ok_bind] at hdisp
    rw [if_neg hfit, replyBytes_of_dispatch hdisp]
    rfl

end Reply

/-- A reply whose bytes follow the fresh blocks is not determined. -/
theorem not_determined {env : Env} {srv : Server} {msg : MessageT} {f : (Nat → Nat → UInt8) → Exec Block}
    (hrun : ∀ junk, replyBytes { env with junk := junk } srv msg = f junk)
    (hdiff : f (fun _ _ => 0) ≠ f (fun _ _ => 1)) : ¬ ReplyDetermined env srv msg := by
  rintro ⟨bytes, hbytes⟩
  refine hdiff ?_
  rw [← hrun, ← hrun, hbytes, hbytes]

/-- **The replies that leak nothing are the key listing, the printed table and the
refusal of a `GET`.** -/
theorem reply_determined_iff (env : Env) (srv : Server) (buckets : Buckets)
    (hr : Rep srv.gTable buckets) (hv : EntriesValid buckets) (msg : MessageT)
    (hop : Carries msg.opcode) (hserv : Servable srv.gTable buckets msg) :
    ReplyDetermined env srv msg ↔ msg.opcode = opGetKeys ∨ msg.opcode = opPrint ∨
      (msg.opcode = opGet ∧ ∃ key, msg.buffer.data = some key ∧ KeyAbsent srv.gTable key) := by
  simp only [Carries, List.mem_cons, List.not_mem_nil, or_false] at hop
  rcases hop with h | h | h | h
  · have hleak : ¬ ReplyDetermined env srv msg :=
      not_determined (fun junk => size_reply hr.shape h (hserv.size h))
        fun heq => by simp [wireSize] at heq
    have hno : ¬ (msg.opcode = opGetKeys ∨ msg.opcode = opPrint ∨ msg.opcode = opGet ∧
        ∃ key, msg.buffer.data = some key ∧ KeyAbsent srv.gTable key) := by
      rw [h]
      simp [opSize, opGetKeys, opPrint, opGet]
    exact iff_of_false hleak hno
  · obtain ⟨key, hkey, hk⟩ := hserv.get h
    have hcond : (msg.opcode = opGetKeys ∨ msg.opcode = opPrint ∨ msg.opcode = opGet ∧
        ∃ key, msg.buffer.data = some key ∧ KeyAbsent srv.gTable key) ↔ KeyAbsent srv.gTable key := by
      rw [h, hkey]
      simp [opGetKeys, opPrint, opGet]
    rw [hcond]
    rcases tableGet_cases hr.shape hv hk with ⟨habs, hget⟩ | ⟨hpres, bs, hbs, hget⟩
    · exact iff_of_true ⟨[], fun junk => get_reply_absent h hkey hget⟩ habs
    · refine iff_of_false ?_ hpres
      by_cases hfit : sizeofInt + (bs.length : Int) ≤ intMax
      · refine not_determined (fun junk => ?_) (f := fun junk => .ok (wireData (junk 1) (.ofBytes bs)))
          fun heq => by simp [wireData] at heq
        rw [get_reply_present h hkey hbs hget, if_pos hfit]
      · -- the reply claims more bytes than its block has
        rintro ⟨bytes, hbytes⟩
        have hrun := hbytes env.junk
        rw [get_reply_present h hkey hbs hget, if_neg hfit] at hrun
        cases hrun
  · exact iff_of_true ⟨_, fun junk => getKeys_reply hr.shape h (hserv.getKeys h)⟩ (Or.inl h)
  · exact iff_of_true ⟨_, fun junk => print_reply hr.shape hv h (hserv.print h)⟩ (Or.inr (Or.inl h))

/-- The theorem at a `GET` of a key that is there. -/
theorem reply_determined_iff_present :
    ¬ ReplyDetermined (.calm fun _ _ => 0) (oneList [entryA]) getRequestA := by
  intro h
  rcases (reply_determined_iff _ _ [[(0, entryA)]] oneList_entryA_rep entryA_valid getRequestA
    (by simp [Carries, getRequestA]) getRequestA_servable).mp h with hop | hop | ⟨-, key, hkey, habs⟩
  · exact absurd hop (by decide)
  · exact absurd hop (by decide)
  · obtain rfl := Option.some.inj hkey
    exact entryA_present habs

/-- A `SIZE` request. -/
def sizeRequest : MessageT := ⟨opSize, ctNone, ⟨0, none⟩⟩

/-- **The size of an empty table goes out with three stale bytes.** -/
theorem sizeRequest_leaks :
    replyBytes (.calm fun _ _ => 0) (tableSkelInit 1) sizeRequest = .ok [0, 0, 0, 0] ∧
      replyBytes (.calm fun _ _ => 1) (tableSkelInit 1) sizeRequest = .ok [0, 1, 1, 1] ∧
        ¬ ReplyDetermined (.calm fun _ _ => 0) (tableSkelInit 1) sizeRequest := by
  have hrun : ∀ junk, replyBytes { Env.calm (fun _ _ => 0) with junk := junk } (tableSkelInit 1)
      sizeRequest = .ok (wireSize (junk 0) 0) := fun junk =>
    size_reply (show Shape (tableSkelInit 1).gTable [[]] from (tableCreate_rep (by decide)).shape) rfl
      (by decide)
  exact ⟨hrun fun _ _ => 0, hrun fun _ _ => 1,
    not_determined hrun fun heq => by simp [wireSize] at heq⟩

end RemoteTable
