import RemoteTable.Block

/-! # The client and the primary server

The address of the primary server is the value of the node `/kvstore/primary` in ZooKeeper.
`start_watcher` reads it into `server_info_buf` and leaves a watch on the node.  When the
watch is triggered, ZooKeeper's thread calls `data_watcher`, which reads the value again and
sets `new`; the command loop finds that out in `update_rtable_t`.

ZooKeeper is not part of the program.  Of its server this is what is used: a watch is
triggered once, by a change of the value or by the deletion of the node.  The library's
`zoo_wget` is a parameter, and `ZooWget.Documented` is what is assumed of it.
-/
namespace RemoteTable
open CMem

/-- `ZDATALEN`. -/
def zdataLen : Nat := 200

/-! ## ZooKeeper -/

/-- What triggers a watch that `zoo_wget` has left: `ZOO_CHANGED_EVENT` and
`ZOO_DELETED_EVENT`. -/
inductive WatchEvent
  | changed
  | deleted
  deriving DecidableEq, Repr

/-- The node, the watch of the client on it, and the events that are still to be handled,
the oldest one first. -/
structure ZooKeeper where
  node : Option (List UInt8)
  armed : Bool
  events : List WatchEvent
  deriving DecidableEq

namespace ZooKeeper

/-- The watch is triggered, if there is one. -/
def trigger (zk : ZooKeeper) (e : WatchEvent) : ZooKeeper :=
  if zk.armed then { zk with armed := false, events := zk.events ++ [e] } else zk

/-- The value of the node is set. -/
def set (zk : ZooKeeper) (v : List UInt8) : ZooKeeper :=
  if zk.node = none then zk else trigger { zk with node := some v } .changed

/-- The node is deleted. -/
def delete (zk : ZooKeeper) : ZooKeeper :=
  if zk.node = none then zk else trigger { zk with node := none } .deleted

/-- The node is created. -/
def create (zk : ZooKeeper) (v : List UInt8) : ZooKeeper :=
  if zk.node = none then { zk with node := some v } else zk

end ZooKeeper

/-- A call of `zoo_wget`, in terms of the buffer and its length: whether it succeeds, and
what it leaves of ZooKeeper, the buffer and the length. -/
abbrev ZooWget := ZooKeeper → Block → Int → Exec (Bool × ZooKeeper × Block × Int)

/-- **What is assumed of `zoo_wget`.**  The length is the capacity before the call and the
count afterwards. -/
structure ZooWget.Documented (zooWget : ZooWget) : Prop where
  /-- When the node exists it leaves a watch, copies what fits to the front of the buffer,
  and adds no terminator. -/
  found : ∀ {zk : ZooKeeper} {v : List UInt8} {b : Block} {n : Nat}, zk.node = some v →
    n ≤ b.length → zooWget zk b n = .ok (true, { zk with armed := true },
      v.take (min n v.length) ++ b.drop (min n v.length), ((min n v.length : Nat) : Int))
  /-- When it does not, the call fails and leaves everything as it was. -/
  missing : ∀ {zk : ZooKeeper} (b : Block) (n : Int), zk.node = none →
    zooWget zk b n = .ok (false, zk, b, n)

/-! ## `client_redundancy.c` -/

/-- The static variables. -/
structure Redundancy where
  connected : Bool
  serverInfoLen : Int
  isWatching : Bool
  new : Bool
  serverInfoBuf : Option Block
  deriving DecidableEq

/-- The variables once the session is connected, before `start_watcher`. -/
def Redundancy.init : Redundancy where
  connected := true
  serverInfoLen := zdataLen
  isWatching := false
  new := false
  serverInfoBuf := none

section Program
variable (zooWget : ZooWget)

/-- The call of `zoo_wget` in `data_watcher`, whose result is not looked at. -/
def fetch (g : Redundancy) (zk : ZooKeeper) : Exec (Redundancy × ZooKeeper) := do
  let buf ← deref g.serverInfoBuf
  let (_, zk, buf, len) ← zooWget zk buf g.serverInfoLen
  return ({ g with serverInfoBuf := some buf, serverInfoLen := len }, zk)

/-- `data_watcher`; `state` says whether the session is connected. -/
def dataWatcher (g : Redundancy) (zk : ZooKeeper) (type : WatchEvent) (state : Bool) :
    Exec (Redundancy × ZooKeeper) :=
  if state then
    if type = .changed then do
      let (g, zk) ← fetch zooWget g zk
      return ({ g with new := true }, zk)
    else .ok (g, zk)
  else .ok (g, zk)

/-- `start_watcher`; `block` says whether `malloc` has a block. -/
def startWatcher (block : Bool) (junk : Nat → UInt8) (g : Redundancy) (zk : ZooKeeper) :
    Exec (Int × Redundancy × ZooKeeper) :=
  if !g.connected then .ok (-1, g, zk)
  else if g.isWatching then .ok (0, g, zk)
  else
    match if block then malloc junk zdataLen else none with
    | none => .ok (-1, { g with serverInfoBuf := none }, zk)
    | some buf => do
      let (ok, zk, buf, len) ← zooWget zk buf g.serverInfoLen
      let g := { g with serverInfoBuf := some buf, serverInfoLen := len }
      -- the block that is freed here is not read again
      if !ok then return (-1, { g with serverInfoBuf := some [] }, zk)
      else return (0, { g with new := true, isWatching := true }, zk)

/-- `is_new`. -/
def isNew (g : Redundancy) : Bool × Redundancy :=
  if g.new then (true, { g with new := false }) else (false, g)

/-- `update_rtable_t`: the value returned, and what `rtable_connect` is called with, if it
is; `connects` says whether it succeeds. -/
def updateRtableT (connects : Block → Bool) (g : Redundancy) :
    Exec (Int × Option Block × Redundancy) :=
  match isNew g with
  | (false, g) => .ok (1, none, g)
  | (true, g) => do
    let buf ← deref g.serverInfoBuf
    return (if connects buf then 1 else 0, some buf, g)

/-- The oldest event is delivered to `data_watcher`, in the connected state. -/
def handle (g : Redundancy) (zk : ZooKeeper) : Exec (Redundancy × ZooKeeper) :=
  match zk.events with
  | [] => .ok (g, zk)
  | e :: events => dataWatcher zooWget g { zk with events := events } e true

end Program

/-! ## What a call of `zoo_wget` leaves -/

/-- There is a buffer, and the capacity is not above its size. -/
def Redundancy.Ready (g : Redundancy) : Prop :=
  ∃ (b : Block) (n : Nat), g.serverInfoBuf = some b ∧ g.serverInfoLen = n ∧ n ≤ b.length

section Wget
variable {zooWget : ZooWget}

/-- It leaves the flag alone. -/
theorem fetch_new {g g' : Redundancy} {zk zk' : ZooKeeper}
    (h : fetch zooWget g zk = .ok (g', zk')) : g'.new = g.new := by
  obtain ⟨b, -, h⟩ := bind_eq_ok.mp h
  obtain ⟨_, -, h⟩ := bind_eq_ok.mp h
  obtain ⟨rfl, -⟩ := Prod.mk.inj (Except.ok.inj h)
  rfl

/-- **The value is fetched within the buffer**, whatever its length and that of the values
before it; the node is watched if it exists. -/
theorem Redundancy.Ready.fetch {g : Redundancy} (h : g.Ready) (hz : zooWget.Documented)
    (zk : ZooKeeper) :
    ∃ g', fetch zooWget g zk = .ok (g', { zk with armed := zk.armed || zk.node.isSome }) ∧
      g'.Ready := by
  obtain ⟨b, n, hb, hn, hle⟩ := h
  obtain ⟨node, armed, events⟩ := zk
  rw [RemoteTable.fetch, hb, deref_some, ok_bind, hn]
  cases node with
  | none =>
    refine ⟨{ g with serverInfoBuf := some b, serverInfoLen := n }, ?_, b, n, rfl, rfl, hle⟩
    rw [hz.missing b n rfl]
    simp
  | some v =>
    refine ⟨{ g with
      serverInfoBuf := some (v.take (min n v.length) ++ b.drop (min n v.length))
      serverInfoLen := (min n v.length : Nat) }, ?_, _, _, rfl, rfl, by simp⟩
    rw [hz.found rfl hle]
    simp

/-- `start_watcher` with a block, when the node exists. -/
theorem startWatcher_granted (hz : zooWget.Documented) (junk : Nat → UInt8) {v : List UInt8}
    {zk : ZooKeeper} (hnode : zk.node = some v) :
    startWatcher zooWget true junk Redundancy.init zk =
      .ok (0, ⟨true, ((min zdataLen v.length : Nat) : Int), true, true,
        some (v.take (min zdataLen v.length) ++
          ((List.range zdataLen).map junk).drop (min zdataLen v.length))⟩,
        { zk with armed := true }) := by
  have hmalloc : malloc junk zdataLen = some ((List.range zdataLen).map junk) :=
    malloc_of_nonneg junk (by omega)
  have hfound := hz.found (b := (List.range zdataLen).map junk) (n := zdataLen) hnode
    (by simp)
  simp only [startWatcher, Redundancy.init, hmalloc, Bool.not_true, Bool.false_eq_true, if_false,
    if_true, hfound, ok_bind, pure_eq_ok]

/-- **What `start_watcher` leaves** when it returns 0: the value at the front of the block,
its length in `server_info_len`, and a watch. -/
theorem startWatcher_started (hz : zooWget.Documented) {block : Bool} {junk : Nat → UInt8}
    {v : List UInt8} {g : Redundancy} {zk zk' : ZooKeeper} (hnode : zk.node = some v)
    (h : startWatcher zooWget block junk Redundancy.init zk = .ok (0, g, zk')) :
    zk' = { zk with armed := true } ∧
      g = ⟨true, ((min zdataLen v.length : Nat) : Int), true, true,
        some (v.take (min zdataLen v.length) ++
          ((List.range zdataLen).map junk).drop (min zdataLen v.length))⟩ := by
  cases block with
  | false => cases h
  | true =>
    rw [startWatcher_granted hz junk hnode] at h
    obtain ⟨-, h⟩ := Prod.mk.inj (Except.ok.inj h)
    obtain ⟨rfl, rfl⟩ := Prod.mk.inj h
    exact ⟨rfl, rfl⟩

/-- When `start_watcher` returns 0 the node exists. -/
theorem startWatcher_found (hz : zooWget.Documented) {block : Bool} {junk : Nat → UInt8}
    {g : Redundancy} {zk zk' : ZooKeeper}
    (h : startWatcher zooWget block junk Redundancy.init zk = .ok (0, g, zk')) :
    ∃ v, zk.node = some v := by
  have hmalloc : malloc junk zdataLen = some ((List.range zdataLen).map junk) :=
    malloc_of_nonneg junk (by omega)
  cases hnode : zk.node with
  | some v => exact ⟨v, rfl⟩
  | none =>
    cases block with
    | false => cases h
    | true =>
      simp only [startWatcher, Redundancy.init, hmalloc, Bool.not_true, Bool.false_eq_true,
        if_false, if_true, hz.missing _ _ hnode, ok_bind, Bool.not_false] at h
      cases h

end Wget

/-! ## A `zoo_wget` that behaves so -/

/-- It does no more than what is assumed. -/
def plainWget : ZooWget := fun zk buffer bufferLen =>
  match zk.node with
  | none => .ok (false, zk, buffer, bufferLen)
  | some v => do
    let count := min bufferLen v.length
    let buffer ← store buffer 0 (v.take count.toNat)
    return (true, { zk with armed := true }, buffer, count)

theorem plainWget_documented : plainWget.Documented := by
  constructor
  · intro zk v b n hnode hn
    have hcount : min (n : Int) v.length = ((min n v.length : Nat) : Int) := by omega
    have hlen : (v.take (min n v.length)).length = min n v.length := by
      rw [List.length_take]
      omega
    have hst := store_front b (v.take (min n v.length)) (by omega)
    rw [hlen] at hst
    simp only [plainWget, hnode, hcount, Int.toNat_natCast, hst, ok_bind, pure_eq_ok]
  · intro zk b n hnode
    rw [plainWget, hnode]

end RemoteTable
