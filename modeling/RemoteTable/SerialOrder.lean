import RemoteTable.DispatchThreads

/-! # Concurrent clients see one sequential table

The log of a run lists the requests in the order in which they acted on the table.
Running `invoke` on them one at a time in that order gives the same table and the same
replies: a request that writes is alone in `table_mutex` between its lookup and its
update, and those that read beside one another leave the table as it is.
-/
namespace RemoteTable
open CMem Transition Tally

/-! ## What a thread sees of its own connection -/

section Connection
variable {V : Type} {split : Split V} {t t' : TableT} {requests rest : List Request}
  {mine : List (Request × MessageT)} {todo : Option (List Instr)} {c : Conn V} {q : Request}
  {instr : Instr} {path : List Instr} {reply : MessageT}

/-- **The instructions of a path**: the lookup has the update behind it, the update has
none behind it, and no other instruction has the update right behind it. -/
theorem suffix_cases (h : instr :: path <:+ q.path) :
    (instr = .work .lookup ∧ .work .update ∈ path) ∨
      (instr = .work .update ∧ .work .update ∉ path) ∨
      (instr ≠ .work .lookup ∧ instr ≠ .work .update ∧ path.head? ≠ some (.work .update)) := by
  rw [q.path_eq] at h
  simp only [List.suffix_cons_iff, List.suffix_nil, List.cons.injEq, reduceCtorEq, or_false] at h
  rcases h with ⟨rfl, rfl⟩ | ⟨rfl, rfl⟩ | ⟨rfl, rfl⟩ | ⟨rfl, rfl⟩ | ⟨rfl, rfl⟩ | ⟨rfl, rfl⟩ | ⟨rfl, rfl⟩
  all_goals simp

/-- What follows the update. -/
theorem update_suffix (h : .work .update :: path <:+ q.path) : path =
    [.release .table q.mode, .acquire .stats .write, .work .count, .release .stats .write] := by
  rw [q.path_eq] at h
  simpa [List.suffix_cons_iff] using h

/-- A request that has been received and has not acted on the table yet. -/
def Conn.pending (c : Conn V) : List Request :=
  match c.job, c.reply with
  | some q, none => [q]
  | _, _ => []

/-- Where a thread is with its request: it has none; or the reply is built once the
update is behind it, and right before the update it has seen the table as it is. -/
inductive Stage (split : Split V) (t : TableT) : Option (List Instr) → Conn V → Prop
  | idle {c : Conn V} (hjob : c.job = none) (hreply : c.reply = none) : Stage split t none c
  | busy {c : Conn V} {q : Request} {path : List Instr} (hjob : c.job = some q)
      (hpath : path <:+ q.path) (hreply : c.reply = none ↔ .work .update ∈ path)
      (hview : path.head? = some (.work .update) → c.view = some (split.look q t)) :
      Stage split t (some path) c

/-- **The invariant of a connection**: its requests are those logged, the one pending and
those to come; the replies logged are those sent and the one to be sent. -/
structure ConnInv (split : Split V) (t : TableT) (requests : List Request)
    (mine : List (Request × MessageT)) (todo : Option (List Instr)) (c : Conn V) : Prop where
  stage : Stage split t todo c
  order : mine.map Prod.fst ++ c.pending ++ c.inbox = requests
  answers : mine.map Prod.snd = c.sent ++ c.reply.toList

theorem ConnInv.receive (hc : ConnInv split t requests mine none c) (hin : c.inbox = q :: rest) :
    ConnInv split t requests mine (some q.path) { c with inbox := rest, job := some q } := by
  obtain ⟨hstage, horder, hanswers⟩ := hc
  cases hstage with
  | idle hjob hreply =>
    refine ⟨.busy rfl List.suffix_rfl ?_ ?_, ?_, hanswers⟩
    · simp [hreply, q.path_eq]
    · simp [q.path_eq]
    · rw [← horder, hin]
      simp [Conn.pending, hjob, hreply]

/-- An instruction that is neither the lookup nor the update. -/
theorem ConnInv.pass (hc : ConnInv split t requests mine (some (instr :: path)) c)
    (hlook : instr ≠ .work .lookup) (hact : instr ≠ .work .update) :
    ConnInv split t requests mine (some path) c := by
  obtain ⟨hstage, horder, hanswers⟩ := hc
  cases hstage with
  | busy hjob hpath hreply _ =>
    rcases suffix_cases hpath with ⟨h, -⟩ | ⟨h, -⟩ | ⟨-, -, hhead⟩
    · exact absurd h hlook
    · exact absurd h hact
    · refine ⟨.busy hjob ((List.suffix_cons instr path).trans hpath) ?_ ?_, horder, hanswers⟩
      · rw [hreply, List.mem_cons, or_iff_right (Ne.symm hact)]
      · exact fun h => absurd h hhead

theorem ConnInv.lookup (hc : ConnInv split t requests mine (some (.work .lookup :: path)) c)
    (hjob : c.job = some q) :
    ConnInv split t requests mine (some path) { c with view := some (split.look q t) } := by
  obtain ⟨hstage, horder, hanswers⟩ := hc
  cases hstage with
  | busy hjob' hpath hreply _ =>
    obtain rfl := Option.some.inj (hjob.symm.trans hjob')
    refine ⟨.busy hjob ((List.suffix_cons _ path).trans hpath) ?_ fun _ => rfl, horder, hanswers⟩
    rw [hreply, List.mem_cons, or_iff_right (by nofun)]

/-- **The update acts on what the lookup has seen**, so it does what the whole table
function does. -/
theorem ConnInv.act_eq (hc : ConnInv split t requests mine (some (.work .update :: path)) c)
    (hjob : c.job = some q) : ∃ v, c.view = some v ∧ split.act q v t = q.tableSection t := by
  cases hc.stage with
  | busy hjob' _ _ hview =>
    obtain rfl := Option.some.inj (hjob.symm.trans hjob')
    exact ⟨_, hview rfl, split.spec _ t⟩

theorem ConnInv.update (hc : ConnInv split t requests mine (some (.work .update :: path)) c)
    (hjob : c.job = some q) :
    ConnInv split t' requests (mine ++ [(q, reply)]) (some path) { c with reply := some reply } := by
  obtain ⟨hstage, horder, hanswers⟩ := hc
  cases hstage with
  | busy hjob' hpath hreply _ =>
    obtain rfl := Option.some.inj (hjob.symm.trans hjob')
    have hnone : c.reply = none := hreply.mpr List.mem_cons_self
    rcases suffix_cases hpath with ⟨h, -⟩ | ⟨-, hnot⟩ | ⟨-, h, -⟩
    · cases h
    · refine ⟨.busy hjob ((List.suffix_cons _ path).trans hpath) (by simp [hnot]) ?_, ?_, ?_⟩
      · exact fun h => absurd (List.mem_of_mem_head? h) hnot
      · rw [← horder]
        simp [Conn.pending, hjob, hnone]
      · simp [hanswers, hnone]
    · exact absurd rfl h

theorem ConnInv.send (hc : ConnInv split t requests mine (some []) c) (hreply : c.reply = some reply) :
    ConnInv split t requests mine none
      { c with job := none, view := none, reply := none, sent := c.sent ++ [reply] } := by
  obtain ⟨hstage, horder, hanswers⟩ := hc
  refine ⟨.idle rfl rfl, ?_, ?_⟩
  · rw [← horder]
    simp [Conn.pending, hreply]
  · simp [hanswers, hreply]

/-- A connection is not concerned by a change of the table unless its thread is about to
act on the table. -/
theorem ConnInv.frame (hc : ConnInv split t requests mine todo c)
    (hsame : (∃ path, todo = some (.work .update :: path)) → t' = t) :
    ConnInv split t' requests mine todo c := by
  obtain ⟨hstage, horder, hanswers⟩ := hc
  refine ⟨?_, horder, hanswers⟩
  cases hstage with
  | idle hjob hreply => exact .idle hjob hreply
  | @busy _ _ path hjob hpath hreply hview =>
    refine .busy hjob hpath hreply fun h => ?_
    cases path with
    | nil => cases h
    | cons instr path =>
      obtain rfl := Option.some.inj h
      rw [hsame ⟨path, rfl⟩]
      exact hview rfl

end Connection

/-! ## What holds of the whole server -/

namespace DispatchState
variable {Tid V : Type} [DecidableEq Tid] {split : Split V} {srv : Server}
  {requests : Tid → List Request} {s s' : DispatchState Tid V} {i j : Tid} {q : Request}

/-- The requests of one connection in the log, with their replies. -/
def entriesOf (i : Tid) (log : List (Tid × Request × MessageT)) : List (Request × MessageT) :=
  (log.filter fun e => e.1 = i).map Prod.snd

theorem entriesOf_append_self (log : List (Tid × Request × MessageT)) (e : Request × MessageT) :
    entriesOf i (log ++ [(i, e)]) = entriesOf i log ++ [e] := by
  simp [entriesOf]

theorem entriesOf_append_other (hj : j ≠ i) (log : List (Tid × Request × MessageT))
    (e : Request × MessageT) : entriesOf j (log ++ [(i, e)]) = entriesOf j log := by
  simp [entriesOf, Ne.symm hj]

/-- **What holds at any moment**: each connection keeps its invariant, and the log, run
one request at a time, gives the table and the replies. -/
structure Serial (split : Split V) (srv : Server) (requests : Tid → List Request)
    (s : DispatchState Tid V) : Prop where
  conns : ∀ i, ConnInv split s.gTable (requests i) (entriesOf i s.log) (s.sys.todo i) (s.conn i)
  replay : ∃ stats, serve srv (s.log.map fun e => e.2.1) =
    .ok (⟨s.gTable, stats⟩, s.log.map fun e => e.2.2)

theorem start_serial : (start srv requests : DispatchState Tid V).Serial split srv requests where
  conns _ := ⟨.idle rfl rfl, rfl, rfl⟩
  replay := ⟨srv.stats, rfl⟩

/-- Every step is a step of the same thread on the locks. -/
theorem sys_step {e : DispatchEvent Tid} (h : s.step split e = some s') :
    ∃ e', s.sys.step e' = some s'.sys := by
  cases e with
  | receive i | send i =>
    simp only [step] at h
    split at h
    · obtain ⟨sys, hsys, rfl⟩ := Option.map_eq_some_iff.mp h
      exact ⟨_, hsys⟩
    · cases h
  | run i =>
    simp only [step] at h
    split at h
    · obtain ⟨s₁, -, h⟩ := Option.bind_eq_some_iff.mp h
      obtain ⟨sys, hsys, rfl⟩ := Option.map_eq_some_iff.mp h
      exact ⟨_, hsys⟩
    · cases h
  | wake i l =>
    obtain ⟨sys, hsys, rfl⟩ := Option.map_eq_some_iff.mp h
    exact ⟨_, hsys⟩

/-- **The locks of the server run as locks by themselves.** -/
theorem projects_sys : (machine split srv requests).Projects (InvokeState.machine Tid)
    fun s : DispatchState Tid V => s.sys where
  init := by
    rintro _ rfl
    rfl
  step s e s' h := by
    obtain ⟨e', hsys⟩ := sys_step h
    refine Or.inr ⟨e', ?_⟩
    exact hsys

section Exclusion
variable {path path' : List Instr}

/-- A thread that is about to act on the table is inside `table_mutex`. -/
theorem inside_of_update (hsys : (InvokeState.machine Tid).Reachable s.sys)
    (htodo : s.sys.todo i = some (.work .update :: path)) (hpath : .work .update :: path <:+ q.path) :
    (s.sys.lock .table).point i = .inside q.mode := by
  obtain ⟨h, hb, hpoints⟩ :=
    (InvokeState.orderly_some htodo).mp (InvokeState.orderly_of_reachable hsys i)
  obtain rfl := update_suffix hpath
  obtain ⟨rfl, -⟩ := hb
  simpa [Point.Allowed, Point.resting] using hpoints .table

/-- The request of a thread that is about to act on the table. -/
theorem Serial.job_of_update (hs : s.Serial split srv requests)
    (htodo : s.sys.todo i = some (.work .update :: path)) :
    ∃ q, (s.conn i).job = some q ∧ .work .update :: path <:+ q.path := by
  have hstage := (hs.conns i).stage
  rw [htodo] at hstage
  cases hstage with
  | busy hjob hpath => exact ⟨_, hjob, hpath⟩

/-- **No thread acts on the table between the lookup and the update of one that
writes.** -/
theorem Serial.update_alone [Fintype Tid] (hs : s.Serial split srv requests)
    (hsys : (InvokeState.machine Tid).Reachable s.sys)
    (hi : s.sys.todo i = some (.work .update :: path)) (hjob : (s.conn i).job = some q)
    (hw : q.mode = .write) (hj : s.sys.todo j = some (.work .update :: path')) : j = i := by
  obtain ⟨q', hjob', hpath⟩ := hs.job_of_update hi
  obtain rfl := Option.some.inj (hjob.symm.trans hjob')
  obtain ⟨p, -, hpath'⟩ := hs.job_of_update hj
  have hwriter : ((s.sys.lock .table).point i).counted .write = true := by
    rw [inside_of_update hsys hi hpath, hw]
    rfl
  have hother : ((s.sys.lock .table).point j).counted p.mode = true := by
    rw [inside_of_update hsys hj hpath']
    simp [Point.counted]
  exact (InvokeState.lock_inv hsys .table).writer_alone hwriter hother

end Exclusion

section Step

@[simp] theorem setConn_self (s : DispatchState Tid V) (i : Tid) : s.setConn i (s.conn i) = s := by
  unfold setConn
  rw [Function.update_eq_self]

/-- A step that changes one connection and leaves the table and the log alone. -/
theorem Serial.local_step (hs : s.Serial split srv requests) {c : Conn V}
    {todo : Option (List Instr)} {sys : InvokeState Tid} {stats : Statistics}
    (htodo : sys.todo = Function.update s.sys.todo i todo)
    (hi : ConnInv split s.gTable (requests i) (entriesOf i s.log) todo c) :
    Serial split srv requests { s.setConn i c with sys := sys, stats := stats } where
  conns j := by
    simp only [setConn, htodo]
    by_cases hj : j = i
    · subst hj
      rw [Function.update_self, Function.update_self]
      exact hi
    · rw [Function.update_of_ne hj, Function.update_of_ne hj]
      exact hs.conns j
  replay := hs.replay

variable [Fintype Tid]

/-- **The update adds its request to the log**, and disturbs no other thread. -/
theorem Serial.update_step (hs : s.Serial split srv requests)
    (hsys : (InvokeState.machine Tid).Reachable s.sys) {path : List Instr} {v : V} {t : TableT}
    {reply : MessageT} {sys : InvokeState Tid}
    (htodo : s.sys.todo i = some (.work .update :: path)) (hjob : (s.conn i).job = some q)
    (hview : (s.conn i).view = some v) (hact : split.act q v s.gTable = .ok (t, reply))
    (hrest : sys.todo = Function.update s.sys.todo i (some path)) :
    Serial split srv requests { s.setConn i { s.conn i with reply := some reply } with
      gTable := t, log := s.log ++ [(i, q, reply)], sys := sys } := by
  have hi := hs.conns i
  rw [htodo] at hi
  obtain ⟨v', hview', hspec⟩ := hi.act_eq hjob
  obtain rfl := Option.some.inj (hview.symm.trans hview')
  have hsection : q.tableSection s.gTable = .ok (t, reply) := hspec.symm.trans hact
  refine ⟨fun j => ?_, ?_⟩
  · simp only [setConn, hrest]
    by_cases hj : j = i
    · subst hj
      rw [Function.update_self, Function.update_self, entriesOf_append_self]
      exact hi.update hjob
    · rw [Function.update_of_ne hj, Function.update_of_ne hj, entriesOf_append_other hj]
      refine (hs.conns j).frame ?_
      rintro ⟨path', hj'⟩
      cases hm : q.mode with
      | read => exact q.tableSection_read hm hsection
      | write => exact absurd (hs.update_alone hsys htodo hjob hm hj') hj
  · obtain ⟨stats, hreplay⟩ := hs.replay
    obtain ⟨stats', hinvoke⟩ : ∃ stats', invoke q.env ⟨s.gTable, stats⟩ q.msg =
        .ok (0, ⟨t, stats'⟩, reply) := q.invoke_eq hsection
    refine ⟨stats', ?_⟩
    rw [List.map_append, List.map_append]
    exact serve_append hreplay hinvoke

/-- A step of `invoke` keeps the order. -/
theorem Serial.run_step (hs : s.Serial split srv requests)
    (hsys : (InvokeState.machine Tid).Reachable s.sys) {instr : Instr} {path : List Instr}
    {sys : InvokeState Tid} (htodo : s.sys.todo i = some (instr :: path))
    (hjob : (s.conn i).job = some q) (heffect : s.effect split i q instr = some s')
    (hrun : s.sys.step (.run i) = some sys) :
    Serial split srv requests { s' with sys := sys } := by
  have hi := hs.conns i
  rw [htodo] at hi
  -- an instruction that neither looks at the table nor acts on it
  have hpass : ∀ stats, instr ≠ .work .lookup → instr ≠ .work .update →
      sys.todo = Function.update s.sys.todo i (some path) →
      Serial split srv requests { s with sys := sys, stats := stats } := by
    intro stats hlook hact hrest
    have hlocal : Serial split srv requests
        { s.setConn i (s.conn i) with sys := sys, stats := stats } :=
      hs.local_step hrest (hi.pass hlook hact)
    rwa [setConn_self] at hlocal
  -- an instruction that is still in the middle of a call on a lock
  have hcall : sys.todo = s.sys.todo → Serial split srv requests { s with sys := sys } := by
    intro hsame
    refine ⟨fun j => ?_, hs.replay⟩
    rw [hsame]
    exact hs.conns j
  have hcases := InvokeState.todo_of_run htodo hrun
  cases instr with
  | acquire l m | release l m =>
    obtain rfl := Option.some.inj heffect
    rcases hcases with ⟨-, hsame⟩ | hrest
    · exact hcall hsame
    · exact hpass _ nofun nofun hrest
  | work w =>
    have hrest := hcases.resolve_left fun h => h.1 w rfl
    cases w with
    | lookup =>
      obtain rfl := Option.some.inj heffect
      exact hs.local_step hrest (hi.lookup hjob)
    | update =>
      simp only [effect] at heffect
      split at heffect
      · cases heffect
      · rename_i v hview
        split at heffect
        · cases heffect
        · rename_i t reply hact
          obtain rfl := Option.some.inj heffect
          exact hs.update_step hsys htodo hjob hview hact hrest
    | count =>
      simp only [effect] at heffect
      split at heffect
      · cases heffect
      · obtain rfl := Option.some.inj heffect
        exact hpass _ nofun nofun hrest
    | copy =>
      obtain rfl := Option.some.inj heffect
      exact hpass _ nofun nofun hrest

/-- **Every step of every thread keeps the order.** -/
theorem Serial.step (hs : s.Serial split srv requests)
    (hsys : (InvokeState.machine Tid).Reachable s.sys) {e : DispatchEvent Tid}
    (h : s.step split e = some s') : s'.Serial split srv requests := by
  cases e with
  | receive i =>
    simp only [DispatchState.step] at h
    split at h
    · rename_i q rest hjob hin
      obtain ⟨sys, hstart, rfl⟩ := Option.map_eq_some_iff.mp h
      obtain ⟨hnone, htodo⟩ := InvokeState.todo_of_start hstart
      have hi := hs.conns i
      rw [hnone] at hi
      exact hs.local_step htodo (hi.receive hin)
    · cases h
  | send i =>
    simp only [DispatchState.step] at h
    split at h
    · rename_i reply hreply hnil
      obtain ⟨sys, hret, rfl⟩ := Option.map_eq_some_iff.mp h
      have hi := hs.conns i
      rw [hnil] at hi
      exact hs.local_step (InvokeState.todo_of_return hnil hret) (hi.send hreply)
    · cases h
  | wake i l =>
    obtain ⟨sys, hwake, rfl⟩ := Option.map_eq_some_iff.mp h
    refine ⟨fun j => ?_, hs.replay⟩
    rw [InvokeState.todo_of_wake hwake]
    exact hs.conns j
  | run i =>
    simp only [DispatchState.step] at h
    split at h
    · rename_i q instr path hjob htodo
      obtain ⟨s₁, heffect, h⟩ := Option.bind_eq_some_iff.mp h
      obtain ⟨sys, hrun, rfl⟩ := Option.map_eq_some_iff.mp h
      exact hs.run_step hsys htodo hjob heffect hrun
    · cases h

/-- The order holds in every state of every run. -/
theorem serial_of_reachable (h : (machine split srv requests).Reachable s) :
    s.Serial split srv requests := by
  refine h.invariant ?_ ?_
  · rintro _ rfl
    exact start_serial
  · intro s e s' hr hs hstep
    exact hs.step (projects_sys.reachable hr) hstep

end Step

/-! ## The end of a run -/

/-- No thread can take a step. -/
def Quiet (split : Split V) (s : DispatchState Tid V) : Prop :=
  ∀ i, s.step split (.receive i) = none ∧ s.step split (.run i) = none ∧
    s.step split (.send i) = none

section Quiet

/-- An instruction takes place unless the table function of its request is undefined. -/
theorem Serial.effect_cases (hs : s.Serial split srv requests) {instr : Instr} {path : List Instr}
    (htodo : s.sys.todo i = some (instr :: path)) (hjob : (s.conn i).job = some q) :
    (∃ s', s.effect split i q instr = some s') ∨
      (instr = .work .update ∧ ∃ f, q.tableSection s.gTable = .error f) := by
  cases instr with
  | acquire l m | release l m => exact Or.inl ⟨_, rfl⟩
  | work w =>
    cases w with
    | lookup | copy => exact Or.inl ⟨_, rfl⟩
    | count =>
      obtain ⟨stats, hstats⟩ := q.updateStats_ok s.stats
      exact Or.inl ⟨_, by rw [effect, hstats]⟩
    | update =>
      have hi := hs.conns i
      rw [htodo] at hi
      obtain ⟨v, hview, hact⟩ := hi.act_eq hjob
      cases hsection : q.tableSection s.gTable with
      | error f => exact Or.inr ⟨rfl, f, rfl⟩
      | ok r => exact Or.inl ⟨_, by rw [effect, hview]; simp only [hact.trans hsection]; rfl⟩

variable [Fintype Tid]

/-- **When no thread can take a step all requests are answered**, or the next request of
some connection has no defined result. -/
theorem Serial.quiet_cases (hs : s.Serial split srv requests)
    (hsys : (InvokeState.machine Tid).Reachable s.sys) (hquiet : s.Quiet split) :
    (∀ i, (s.conn i).job = none ∧ (s.conn i).reply = none ∧ (s.conn i).inbox = []) ∨
      ∃ i q f, (s.conn i).pending = [q] ∧ q.tableSection s.gTable = .error f := by
  by_cases hin : ∃ i, s.sys.todo i ≠ none
  · obtain ⟨i, hin⟩ := hin
    obtain ⟨j, hjin, sys, hrun⟩ := InvokeState.some_runs hsys hin
    obtain ⟨path, htodo⟩ := Option.ne_none_iff_exists'.mp hjin
    have hstage := (hs.conns j).stage
    rw [htodo] at hstage
    cases hstage with
    | @busy _ q _ hjob hpath hreply =>
      cases path with
      | nil =>
        obtain ⟨reply, hsome⟩ := Option.ne_none_iff_exists'.mp (mt hreply.mp List.not_mem_nil)
        have hsend := (hquiet j).2.2
        simp [DispatchState.step, hsome, htodo, hrun] at hsend
      | cons instr path =>
        rcases hs.effect_cases htodo hjob with ⟨s', heffect⟩ | ⟨rfl, f, hf⟩
        · have hnone := (hquiet j).2.1
          simp [DispatchState.step, hjob, htodo, heffect, hrun] at hnone
        · have hnone := hreply.mpr List.mem_cons_self
          exact Or.inr ⟨j, q, f, by simp [Conn.pending, hjob, hnone], hf⟩
  · refine Or.inl fun i => ?_
    have htodo : s.sys.todo i = none := by
      by_contra h
      exact hin ⟨i, h⟩
    have hstage := (hs.conns i).stage
    rw [htodo] at hstage
    cases hstage with
    | idle hjob hreply =>
      refine ⟨hjob, hreply, ?_⟩
      cases hbox : (s.conn i).inbox with
      | nil => rfl
      | cons q rest =>
        have hreceive := (hquiet i).1
        simp [DispatchState.step, hjob, hbox, InvokeState.step, htodo] at hreceive

/-- **Concurrent clients see one sequential table**: at any moment there is an order of
the requests, which keeps the order of each connection, such that `invoke` on one after
the other leaves the table there is and gives the replies.  A connection has been sent
the replies to its first requests, in order, one each; and when no thread can take a
step it has been sent all of them, unless the next request of some connection has no
defined result after the others either. -/
theorem dispatch_serializes (h : (machine split srv requests).Reachable s) :
    ∃ order : List (Tid × Request × MessageT),
      (∃ stats, serve srv (order.map fun e => e.2.1) =
        .ok (⟨s.gTable, stats⟩, order.map fun e => e.2.2)) ∧
      (∀ i, (entriesOf i order).map Prod.fst ++ (s.conn i).pending ++ (s.conn i).inbox = requests i ∧
        (entriesOf i order).map Prod.snd = (s.conn i).sent ++ (s.conn i).reply.toList) ∧
      (s.Quiet split →
        (∀ i, (entriesOf i order).map Prod.fst = requests i ∧
          (entriesOf i order).map Prod.snd = (s.conn i).sent) ∨
        ∃ i q f, (s.conn i).pending = [q] ∧
          ∀ stats, invoke q.env ⟨s.gTable, stats⟩ q.msg = .error f) := by
  have hs := serial_of_reachable h
  refine ⟨s.log, hs.replay, fun i => ⟨(hs.conns i).order, (hs.conns i).answers⟩, fun hquiet => ?_⟩
  rcases hs.quiet_cases (projects_sys.reachable h) hquiet with hdone | ⟨i, q, f, hpending, hf⟩
  · refine Or.inl fun i => ?_
    obtain ⟨hjob, hreply, hbox⟩ := hdone i
    have horder := (hs.conns i).order
    have hanswers := (hs.conns i).answers
    refine ⟨?_, ?_⟩
    · simpa [Conn.pending, hjob, hbox] using horder
    · simpa [hreply] using hanswers
  · exact Or.inr ⟨i, q, f, hpending, fun stats => q.invoke_fault hf⟩

end Quiet

/-- The split that does everything at the lookup and only stores the result at the
update. -/
def eager : Split (Exec (TableT × MessageT)) where
  look q t := q.tableSection t
  act _ v _ := v
  spec _ _ := rfl

/-- A `SIZE` request. -/
def askSize : Request where
  env := .calm fun _ _ => 0
  msg := ⟨opSize, ctNone, ⟨0, none⟩⟩
  counted := List.mem_cons_self
  writeLock := rfl
  writeUnlock := rfl

/-- A `DEL` request. -/
def askDel : Request where
  env := .calm fun _ _ => 0
  msg := ⟨opDel, ctKey, ⟨2, some [97, 0]⟩⟩
  counted := List.mem_cons_of_mem _ List.mem_cons_self
  writeLock := rfl
  writeUnlock := rfl

/-- One client asks for the size, another one deletes a key. -/
def twoClients : Bool → List Request
  | false => [askSize]
  | true => [askDel]

/-- The `DEL` comes while the `SIZE` is between its lookup and its update, and waits. -/
def overlap : List (DispatchEvent Bool) :=
  .receive false :: List.replicate 7 (.run false) ++ .receive true :: List.replicate 3 (.run true) ++
    List.replicate 18 (.run false) ++ [.send false]

/-- The theorem where the one client has its reply and the other one is under way. -/
theorem dispatch_serializes_overlap :
    ∃ s, (machine eager (tableSkelInit 1) twoClients).run (start (tableSkelInit 1) twoClients)
        overlap = some s ∧
      (s.conn false).sent = [⟨opSize + 1, ctResult, ⟨4, some [0, 0, 0, 0]⟩⟩] ∧
      ∃ order : List (Bool × Request × MessageT),
        (∃ stats, serve (tableSkelInit 1) (order.map fun e => e.2.1) =
          .ok (⟨s.gTable, stats⟩, order.map fun e => e.2.2)) ∧
        (∀ i, (entriesOf i order).map Prod.fst ++ (s.conn i).pending ++ (s.conn i).inbox =
            twoClients i ∧
          (entriesOf i order).map Prod.snd = (s.conn i).sent ++ (s.conn i).reply.toList) ∧
        (s.Quiet eager →
          (∀ i, (entriesOf i order).map Prod.fst = twoClients i ∧
            (entriesOf i order).map Prod.snd = (s.conn i).sent) ∨
          ∃ i q f, (s.conn i).pending = [q] ∧
            ∀ stats, invoke q.env ⟨s.gTable, stats⟩ q.msg = .error f) := by
  obtain ⟨s, hrun, hsent⟩ : ∃ s, (machine eager (tableSkelInit 1) twoClients).run
      (start (tableSkelInit 1) twoClients) overlap = some s ∧
      (s.conn false).sent = [⟨opSize + 1, ctResult, ⟨4, some [0, 0, 0, 0]⟩⟩] := ⟨_, rfl, rfl⟩
  exact ⟨s, hrun, hsent, dispatch_serializes (Machine.Reachable.run (.start rfl) hrun)⟩

end DispatchState
end RemoteTable
