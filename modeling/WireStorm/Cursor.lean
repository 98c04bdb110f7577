import WireStorm.Ownership

/-!
# The cursor of a worker

The pointers `current`, `prev` and `next` of a worker over every run (`Cursor`):
`next` may be stale after `goto conn_closed`, but it is always `NULL`, the
current entry or the one behind it. With that, `Worker.pos` moves forward one
entry at a time, and a step of a worker is one of few effects on the entries and
on the connection it serves (`Effect`).
-/

namespace WireStorm

/-! ## The pointers -/

/-- Where `next` can point in the body of the loop, with `current` entry `e`: it
is left from the previous round up to the read of `TAILQ_NEXT`, read after that,
and either behind `conn_closed`. -/
def LoopPc.NextAt (l : LoopPc) (e x : Nat) : Prop :=
  match l with
  | .alive | .forward | .send _ | .mark | .lockNext | .readNext => x = e
  | .unlockNext | .test => x = e + 1
  | _ => x = e ∨ x = e + 1

/-- The pointers of a worker in a queue of `len` entries. -/
def Cursor (len : Nat) (w : Worker) : Prop :=
  match w.pc with
  | .idle => True
  | .get current g => Seeking len current w.prev g ∧ w.next = current
  | .body e l => e < len ∧ ∀ x, w.next = some x → x < len ∧ l.NextAt e x

theorem Cursor.mono {len len' : Nat} {w : Worker} (h : Cursor len w) (hlen : len ≤ len') :
    Cursor len' w := by
  unfold Cursor at h ⊢
  split at h
  · trivial
  · exact ⟨h.1.mono hlen, h.2⟩
  · exact pointers_mono h hlen

theorem cursor_congr {len : Nat} {w w' : Worker} (h : SameLoop w w') :
    Cursor len w' ↔ Cursor len w := by
  unfold Cursor
  rw [h.pc, h.prev, h.next]

/-- A worker whose new program counter allows the same `next`. -/
theorem Cursor.goto {len e : Nat} {l l' : LoopPc} {w w' : Worker} (h : Cursor len w)
    (hpc : w.pc = .body e l) (hpc' : w'.pc = .body e l') (hnext : w'.next = w.next)
    (hl : ∀ x, l.NextAt e x → l'.NextAt e x) : Cursor len w' := by
  simp only [Cursor, hpc] at h
  simp only [Cursor, hpc', hnext]
  exact ⟨h.1, fun x hx => ⟨(h.2 x hx).1, hl x (h.2 x hx).2⟩⟩

theorem quietNext_nextAt {l l' : LoopPc} (h : l.quietNext = some l') {e x : Nat}
    (hx : l.NextAt e x) : l'.NextAt e x := by
  cases l <;> cases h <;> exact hx

theorem length_entries {i : Nat} {v v' : WorkerView} (hmove : WorkerMove i v v') :
    v'.queue.entries.length = v.queue.entries.length := by
  cases hmove with
  | seek _ hget | found _ hget => exact congrArg List.length (entries_getMsgEntry hget)
  | quiet _ _ hq => exact congrArg List.length hq
  | mark => exact List.length_set
  | reset _ hq =>
    rcases hq with rfl | ⟨_, _, -, -, rfl⟩
    · rfl
    · exact List.length_set
  | _ => rfl

/-- **The pointers** stay in order in every step of the worker. -/
theorem WorkerMove.cursor {i : Nat} {v v' : WorkerView} (hmove : WorkerMove i v v')
    (hc : Cursor v.queue.entries.length v.worker) : Cursor v.queue.entries.length v'.worker := by
  cases hmove with
  | seek hpc hget =>
    simp only [Cursor, hpc] at hc
    exact ⟨getMsgEntry_spec hc.1 hget, hc.2⟩
  | found hpc hget =>
    rename_i current g q e
    simp only [Cursor, hpc] at hc
    obtain ⟨hlt, he⟩ := getMsgEntry_spec hc.1 hget
    refine ⟨hlt, fun x hx => ?_⟩
    have hcur : current = some x := hc.2.symm.trans hx
    have hxe : x = e := by rw [he, hcur]; rfl
    exact ⟨hc.1.current_lt x hcur, hxe⟩
  | quiet hpc hl => exact hc.goto hpc rfl rfl fun x => quietNext_nextAt hl
  | dead hpc => exact hc.goto hpc rfl rfl fun x => .inl
  | refuse hpc | start hpc | write hpc | sent hpc | mark hpc => exact hc.goto hpc rfl rfl fun x => id
  | fault => exact hc
  | readNext hpc =>
    simp only [Cursor, hpc] at hc
    exact ⟨hc.1, fun x hx => MsgQueue.next_eq_some hx⟩
  | test hpc =>
    by_cases hfail : v.worker.bytesSent < 0
    · simp only [hfail, if_true]
      exact hc.goto hpc rfl rfl fun x => .inr
    · simp only [hfail, if_false]
      exact hc.goto hpc rfl rfl fun x => .inr
  | advance hpc =>
    simp only [Cursor, hpc] at hc
    refine ⟨⟨fun x hx => (hc.2 x hx).1, ?_, fun h => absurd rfl h, by simp, by simp, by simp⟩, rfl⟩
    rintro p ⟨⟩
    exact hc.1
  | close hpc | lockArgs hpc | setReady hpc | clearBit hpc | busy hpc | sleep hpc | wake hpc
  | reset hpc | unlockArgs hpc =>
    exact hc.goto hpc rfl rfl fun x => id

theorem Cursor.pos_le {len : Nat} {w : Worker} (h : Cursor len w) : w.pos ≤ len := by
  cases hpc : w.pc with
  | idle => simp [Worker.pos, hpc]
  | get current g =>
    simp only [Cursor, hpc] at h
    simp only [Worker.pos, hpc]
    exact h.1.seekPos_le
  | body e l =>
    simp only [Cursor, hpc] at h
    have hnext : w.next.getD (e + 1) ≤ len := by
      cases hx : w.next with
      | none => exact h.1
      | some x => exact Nat.le_of_lt (h.2 x hx).1
    have hlt : e ≤ len := Nat.le_of_lt h.1
    cases l <;> simp only [Worker.pos, hpc] <;> first | exact hnext | exact hlt | exact h.1

/-! ## What a step of a worker comes to -/

/-- What a worker is doing at its position: looking for or at the entry there,
sending it, about to mark it as sent, behind it, or about to close the
connection. The flag says that `bytes_sent` is negative. -/
inductive Task
  | seek
  | send (p : SendPc)
  | mark (failed : Bool)
  | passed (failed : Bool)
  | leave
  deriving DecidableEq

def Worker.task (w : Worker) : Task :=
  match w.pc with
  | .body _ l =>
    match l with
    | .send p => .send p
    | .mark => .mark (w.bytesSent < 0)
    | .lockNext | .readNext | .unlockNext | .test => .passed (w.bytesSent < 0)
    | .close => .leave
    | _ => .seek
  | _ => .seek

/-- A step that leaves entries, connection and position alone. -/
inductive Calm : Task → Task → Prop
  | seek : Calm .seek .seek
  | passed (failed : Bool) : Calm (.passed failed) (.passed failed)
  | next : Calm (.passed false) .seek
  | giveUp : Calm (.passed true) .leave

/-- What a step of worker `i` does to the entries, to its connection and to its position. -/
inductive Effect (i : Nat) (v v' : WorkerView) : Prop
  | quiet (hentries : v'.queue.entries = v.queue.entries) (hclient : v'.client = v.client)
      (hpos : v'.worker.pos = v.worker.pos) (htask : Calm v.worker.task v'.worker.task)
  | dead (hentries : v'.queue.entries = v.queue.entries)
      (hclient : v'.client = { v.client with deadSeen := true })
      (hpos : v.worker.pos ≤ v'.worker.pos) (htask : v.worker.task = .seek) (htask' : v'.worker.task = .leave)
  | closed (hentries : v'.queue.entries = v.queue.entries)
      (hclient : v'.client = { v.client with closed := true }) (htask : v.worker.task = .leave)
  | refuse {entry : MsgEntry} (hentry : v.queue.entries[v.worker.pos]? = some entry)
      (hno : entry.canForward i v.worker.timestamp = some false)
      (hpc : v.worker.pc = .body v.worker.pos .forward)
      (hentries : v'.queue.entries = v.queue.entries) (hclient : v'.client = v.client)
      (hpos : v'.worker.pos = v.worker.pos + 1) (htask : v.worker.task = .seek)
      (htask' : v'.worker.task = .passed (v.worker.bytesSent < 0))
  | start {entry : MsgEntry} (hentry : v.queue.entries[v.worker.pos]? = some entry)
      (hyes : entry.canForward i v.worker.timestamp = some true)
      (hentries : v'.queue.entries = v.queue.entries)
      (hclient : v'.client = { v.client with unfinished := some (v.worker.pos, 0) })
      (hpos : v'.worker.pos = v.worker.pos) (htask : v.worker.task = .seek)
      (htask' : v'.worker.task = .send (.header 0))
  | write {entry : MsgEntry} {msg : CtmpMsg} {p p' : SendPc} {ev : SendEvent} {bs : List UInt8}
      (hentry : v.queue.entries[v.worker.pos]? = some entry) (hmsg : entry.msg = some msg)
      (hround : sendCtmpMsgRound msg p ev = (bs, .more p'))
      (hentries : v'.queue.entries = v.queue.entries)
      (hclient : v'.client = v.client.wrote v.worker.pos p bs)
      (hpos : v'.worker.pos = v.worker.pos) (htask : v.worker.task = .send p)
      (htask' : v'.worker.task = .send p')
  | sent {entry : MsgEntry} {msg : CtmpMsg} {p : SendPc} {ev : SendEvent} {bs : List UInt8}
      {res : Int} (hentry : v.queue.entries[v.worker.pos]? = some entry)
      (hmsg : entry.msg = some msg) (hround : sendCtmpMsgRound msg p ev = (bs, .ret res))
      (hentries : v'.queue.entries = v.queue.entries)
      (hclient : v'.client = v.client.sent v.worker.pos p bs res)
      (hpos : v'.worker.pos = v.worker.pos) (htask : v.worker.task = .send p)
      (htask' : v'.worker.task = .mark (res < 0))
  | mark {entry entry' : MsgEntry} {failed : Bool}
      (hentry : v.queue.entries[v.worker.pos]? = some entry)
      (hset : entry.setSent i true = some entry')
      (hentries : v'.queue.entries = v.queue.entries.set v.worker.pos entry')
      (hclient : v'.client = v.client) (hpos : v'.worker.pos = v.worker.pos + 1)
      (htask : v.worker.task = .mark failed) (htask' : v'.worker.task = .passed failed)
  | reset {e : Nat} {entry entry' : MsgEntry} (hentry : v.queue.entries[e]? = some entry)
      (hset : entry.setSent i false = some entry')
      (hentries : v'.queue.entries = v.queue.entries.set e entry')
      (hclient : v'.client = v.client) (hpos : v'.worker.pos = v.worker.pos)
      (htask : v.worker.task = .seek) (htask' : v'.worker.task = .seek)
  | fault {entry : MsgEntry} {l : LoopPc} {f : Fault}
      (hentry : v.queue.entries[v.worker.pos]? = some entry)
      (hpc : v.worker.pc = .body v.worker.pos l) (hf : Touches i v entry l f)
      (hv : v' = { v with fault := some f })

/-- **A step of a worker** has one of the effects. -/
theorem WorkerMove.effect {i : Nat} {v v' : WorkerView} (hmove : WorkerMove i v v')
    (hc : Cursor v.queue.entries.length v.worker) : Effect i v v' := by
  -- `next` is behind the current entry once it has been read
  have hread : ∀ {e l}, v.worker.pc = .body e l → (∀ x, l.NextAt e x → x = e + 1) →
      v.worker.next.getD (e + 1) = e + 1 := by
    intro e l hpc hl
    simp only [Cursor, hpc] at hc
    cases hx : v.worker.next with
    | none => rfl
    | some x => exact hl x (hc.2 x hx).2
  cases hmove with
  | seek hpc hget =>
    refine .quiet (entries_getMsgEntry hget) rfl ?_ ?_
    · simp only [Worker.pos, hpc]
    · simp only [Worker.task, hpc]
      exact .seek
  | found hpc hget =>
    simp only [Cursor, hpc] at hc
    refine .quiet (entries_getMsgEntry hget) rfl ?_ ?_
    · simp only [Worker.pos, hpc, WorkerView.goto]
      exact (getMsgEntry_spec hc.1 hget).2
    · simp only [Worker.task, hpc, WorkerView.goto]
      exact .seek
  | quiet hpc hl hq hmask =>
    rename_i e l l' q mask
    refine .quiet hq rfl ?_ ?_
    · cases l <;> cases hl <;> simp only [Worker.pos, hpc, WorkerView.goto]
    · cases l <;> cases hl <;> simp only [Worker.task, hpc, WorkerView.goto]
      all_goals first | exact .seek | exact .passed _
  | dead hpc =>
    rename_i e
    refine .dead rfl rfl ?_ ?_ rfl
    · simp only [Worker.pos, hpc, WorkerView.goto]
      simp only [Cursor, hpc] at hc
      cases hx : v.worker.next with
      | none => exact Nat.le_succ e
      | some x => exact Nat.le_of_eq (hc.2 x hx).2.symm
    · simp only [Worker.task, hpc]
  | refuse hpc hentry hno =>
    rename_i e entry
    have hpos : v.worker.pos = e := by simp only [Worker.pos, hpc]
    subst hpos
    refine .refuse hentry hno hpc rfl rfl rfl ?_ rfl
    simp only [Worker.task, hpc]
  | start hpc hentry hyes =>
    rename_i e entry
    have hpos : v.worker.pos = e := by simp only [Worker.pos, hpc]
    subst hpos
    refine .start hentry hyes rfl rfl rfl ?_ rfl
    simp only [Worker.task, hpc]
  | write hpc hentry hmsg hround =>
    rename_i e entry msg p p' ev bs
    have hpos : v.worker.pos = e := by simp only [Worker.pos, hpc]
    subst hpos
    refine .write hentry hmsg hround rfl rfl rfl ?_ rfl
    simp only [Worker.task, hpc]
  | sent hpc hentry hmsg hround =>
    rename_i e entry msg p ev bs res
    have hpos : v.worker.pos = e := by simp only [Worker.pos, hpc]
    subst hpos
    refine .sent hentry hmsg hround rfl rfl rfl ?_ rfl
    simp only [Worker.task, hpc]
  | mark hpc hentry hset =>
    rename_i e entry entry'
    have hpos : v.worker.pos = e := by simp only [Worker.pos, hpc]
    subst hpos
    have htask : v.worker.task = .mark (v.worker.bytesSent < 0) := by simp only [Worker.task, hpc]
    exact .mark hentry hset rfl rfl rfl htask rfl
  | fault hpc hentry hf =>
    rename_i e l entry f
    have hpos : v.worker.pos = e := by cases hf <;> simp only [Worker.pos, hpc]
    subst hpos
    exact .fault hentry hpc hf rfl
  | readNext hpc =>
    refine .quiet rfl rfl ?_ ?_
    · simp only [Worker.pos, hpc]
    · simp only [Worker.task, hpc]
      exact .passed _
  | test hpc =>
    rename_i e
    have hnext := hread hpc fun x hx => hx
    by_cases hfail : v.worker.bytesSent < 0
    · refine .quiet rfl rfl ?_ ?_
      · simp only [Worker.pos, hpc, WorkerView.goto, hfail, if_true, hnext]
      · simp only [Worker.task, hpc, WorkerView.goto, hfail, if_true, decide_true]
        exact .giveUp
    · refine .quiet rfl rfl ?_ ?_
      · simp only [Worker.pos, hpc, WorkerView.goto, hfail, if_false, hnext]
      · simp only [Worker.task, hpc, WorkerView.goto, hfail, if_false, decide_false]
        exact .next
  | close hpc =>
    refine .closed rfl rfl ?_
    simp only [Worker.task, hpc]
  | lockArgs hpc | setReady hpc | clearBit hpc | busy hpc | sleep hpc | wake hpc | unlockArgs hpc =>
    refine .quiet rfl rfl ?_ ?_
    · simp only [Worker.pos, hpc, WorkerView.goto]
    · simp only [Worker.task, hpc, WorkerView.goto]
      exact .seek
  | reset hpc hq =>
    rename_i e q
    have hpos : ∀ q, ({ v.goto e .unlockArgs with queue := q } : WorkerView).worker.pos =
        v.worker.pos := by
      intro q
      simp only [Worker.pos, hpc, WorkerView.goto]
    have htask : v.worker.task = .seek := by simp only [Worker.task, hpc]
    rcases hq with rfl | ⟨entry, entry', hentry, hset, rfl⟩
    · refine .quiet rfl rfl (hpos _) ?_
      rw [htask]
      exact .seek
    · exact .reset hentry hset rfl rfl (hpos _) htask rfl
  | advance hpc =>
    refine .quiet rfl rfl ?_ ?_
    · simp only [Worker.pos, hpc, seekPos]
      cases v.worker.next <;> rfl
    · simp only [Worker.task, hpc]
      exact .seek

/-! ## The entries -/

theorem srcStep_entries {s s' : System} {msg : Option CtmpMsg} (hs : s.srcStep msg = some s') :
    s'.queue.entries = s.queue.entries ∨
      ∃ entry, s.src = .insert entry ∧ s'.queue.entries = s.queue.entries ++ [entry] := by
  cases srcStep_move hs with
  | lock _ hq => exact .inl (MsgQueue.entries_acquire hq)
  | insert hpc => exact .inr ⟨_, hpc, rfl⟩
  | nothing | parsed | stamp | broadcast | unlock => exact .inl rfl

/-- The cleanup worker changes the entries where it frees one. -/
theorem cleanupStep_entries {args : Args} {s s' : System} (hs : s.cleanupStep args = some s') :
    s'.queue.entries = s.queue.entries ∨ ∃ e entry, s.cleanup.pc = .free e ∧
      s.queue.entries[e]? = some entry ∧
      s'.queue.entries = s.queue.entries.set e entry.freeMsgData := by
  cases cleanupStep_move hs with
  | seek _ hget | found _ hget => exact .inl (entries_getMsgEntry hget)
  | lockFree _ hq | lockNext _ hq => exact .inl (MsgQueue.entries_acquire hq)
  | free hpc hentry => exact .inr ⟨_, _, hpc, hentry, rfl⟩
  | expired | skip | unlockFree | readNext | unlockNext | advance => exact .inl rfl

theorem Effect.entries {i : Nat} {v v' : WorkerView} (h : Effect i v v') :
    v'.queue.entries = v.queue.entries ∨ ∃ e entry entry' val, v.queue.entries[e]? = some entry ∧
      entry.setSent i val = some entry' ∧ v'.queue.entries = v.queue.entries.set e entry' := by
  cases h with
  | mark hentry hset hentries | reset hentry hset hentries =>
    exact .inr ⟨_, _, _, _, hentry, hset, hentries⟩
  | fault _ _ _ hv =>
    rw [hv]
    exact .inl rfl
  | quiet hentries | dead hentries | closed hentries | refuse _ _ _ hentries
  | start _ _ hentries | write _ _ _ hentries | sent _ _ _ hentries => exact .inl hentries

theorem Effect.length_entries {i : Nat} {v v' : WorkerView} (h : Effect i v v') :
    v'.queue.entries.length = v.queue.entries.length := by
  rcases h.entries with hes | ⟨e, entry, entry', val, -, -, hes⟩
  · rw [hes]
  · rw [hes, List.length_set]

/-- What a step can do to the entries of the queue. -/
inductive EntriesMove (s : System) (l : Label) (es : List MsgEntry) : Prop
  | same (hes : es = s.queue.entries)
  | append {entry : MsgEntry} (hsrc : s.src = .insert entry) (hes : es = s.queue.entries ++ [entry])
  | mark {i : Nat} {o : Outcome} {e : Nat} {entry entry' : MsgEntry} {val : Bool}
      (hl : l = .worker i o) (hentry : s.queue.entries[e]? = some entry)
      (hset : entry.setSent i val = some entry') (hes : es = s.queue.entries.set e entry')
  | free {e : Nat} {entry : MsgEntry} (hl : l = .cleanup) (hpc : s.cleanup.pc = .free e)
      (hentry : s.queue.entries[e]? = some entry)
      (hes : es = s.queue.entries.set e entry.freeMsgData)

/-- Entries are not removed, and keep their timestamp and the message that they carry. -/
def Keeps (es es' : List MsgEntry) : Prop :=
  ∀ (e : Nat) (entry : MsgEntry), es[e]? = some entry →
    ∃ entry', es'[e]? = some entry' ∧ entry.SameMsg entry'

theorem Keeps.length_le {es es' : List MsgEntry} (h : Keeps es es') : es.length ≤ es'.length := by
  by_contra hlt
  have hlast : es[es'.length]? = some es[es'.length] := List.getElem?_eq_getElem (by omega)
  obtain ⟨entry', hentry', -⟩ := h _ _ hlast
  rw [List.getElem?_eq_none (Nat.le_refl _)] at hentry'
  cases hentry'

theorem keeps_append (es : List MsgEntry) (entry : MsgEntry) : Keeps es (es ++ [entry]) :=
  fun e entry₀ h => ⟨entry₀, by rw [List.getElem?_append_left (List.getElem?_eq_some_iff.mp h).1, h],
    rfl, rfl⟩

theorem keeps_set {es : List MsgEntry} {e : Nat} {entry entry' : MsgEntry}
    (hentry : es[e]? = some entry) (hsame : entry.SameMsg entry') : Keeps es (es.set e entry') := by
  intro e₀ entry₀ h
  by_cases he : e₀ = e
  · subst he
    rw [hentry] at h
    cases h
    exact ⟨entry', List.getElem?_set_self (List.getElem?_eq_some_iff.mp hentry).1, hsame⟩
  · exact ⟨entry₀, by rw [List.getElem?_set_ne (Ne.symm he), h], rfl, rfl⟩

/-- A change of an entry that `f` does not see. -/
theorem map_set_of_eq {β : Type*} {f : MsgEntry → β} {es : List MsgEntry} {e : Nat}
    {entry entry' : MsgEntry} (hentry : es[e]? = some entry) (h : f entry' = f entry) :
    (es.set e entry').map f = es.map f := by
  obtain ⟨hlt, rfl⟩ := List.getElem?_eq_some_iff.mp hentry
  rw [List.map_set, h, ← List.map_set, List.set_getElem_self]

theorem EntriesMove.keeps {s : System} {l : Label} {es : List MsgEntry} (h : EntriesMove s l es) :
    Keeps s.queue.entries es := by
  cases h with
  | same hes => exact hes ▸ fun e entry h => ⟨entry, h, rfl, rfl⟩
  | append _ hes => exact hes ▸ keeps_append _ _
  | mark _ hentry hset hes => exact hes ▸ keeps_set hentry (MsgEntry.setSent_eq_some hset).1
  | free _ _ hentry hes => exact hes ▸ keeps_set hentry (MsgEntry.freeMsgData_sameMsg _)

/-! ## Every run -/

/-- The pointers of every worker are in order. -/
def Cursors (s : System) : Prop := ∀ i, Cursor s.queue.entries.length (s.workers i)

section
variable {args : Args} {s s' : System}

theorem dispatcherStep_queue {accepts : Bool} (hp : Pool args.numWorkers s)
    (hs : s.dispatcherStep args accepts = some s') : s'.queue = s.queue := by
  cases dispatcherStep_move hp hs with
  | calm hqueue => exact hqueue
  | accept | clock | setFd | setTime | create => rfl

/-- **A step of the server** does one of the moves to the entries. -/
theorem step_entries {l : Label} (hp : Pool args.numWorkers s) (hc : Cursors s)
    (hs : s.step args l = some s') : EntriesMove s l s'.queue.entries := by
  cases step_move hs with
  | src hstep =>
    rcases srcStep_entries hstep with hes | ⟨entry, hsrc, hes⟩
    · exact .same hes
    · exact .append hsrc hes
  | dispatcher hstep => exact .same (congrArg _ (dispatcherStep_queue hp hstep))
  | worker hstep =>
    obtain ⟨fd, v', hfd, hv, rfl⟩ := workerStep_eq hstep
    have heffect := (WorkerView.step_move hv).effect (hc _)
    rcases heffect.entries with hes | ⟨e, entry, entry', val, hentry, hset, hes⟩
    · exact .same hes
    · exact .mark rfl hentry hset hes
  | cleanup hstep =>
    rcases cleanupStep_entries hstep with hes | ⟨e, entry, hpc, hentry, hes⟩
    · exact .same hes
    · exact .free rfl hpc hentry hes
  | tick | wakeMsg | wakeArgs => exact .same rfl

theorem dispatcherStep_cursors {accepts : Bool} (hp : Pool args.numWorkers s) (h : Cursors s)
    (hs : s.dispatcherStep args accepts = some s') : Cursors s' := by
  cases dispatcherStep_move hp hs with
  | calm hqueue _ _ _ _ _ _ _ hloop =>
    intro i
    rw [hqueue, cursor_congr (hloop i)]
    exact h i
  | accept | clock => exact h
  | setFd hpc | setTime hpc =>
    rename_i fd k wake
    intro i
    by_cases hi : i = k
    · subst hi
      simpa [Cursor] using h i
    · simpa [hi] using h i
  | create hpc =>
    rename_i fd k wake _
    intro i
    by_cases hi : i = k
    · subst hi
      simp only [System.workers_dispatcherAt, System.workers_setWorker, Function.update_self]
      exact ⟨⟨by simp, by simp, fun _ => rfl, fun _ => rfl, by simp, by simp⟩, rfl⟩
    · simpa [hi] using h i

theorem step_keeps_cursors {l : Label} (hp : Pool args.numWorkers s) (h : Cursors s)
    (hs : s.step args l = some s') : Cursors s' := by
  have hlen := (step_entries hp h hs).keeps.length_le
  -- workers that the step leaves alone
  have hworkers : s'.workers = s.workers → Cursors s' := by
    intro heq i
    rw [heq]
    exact (h i).mono hlen
  cases step_move hs with
  | src hstep => exact hworkers (srcStep_frame hstep).workers
  | dispatcher hstep => exact dispatcherStep_cursors hp h hstep
  | @worker i o _ hstep =>
    obtain ⟨fd, v', hfd, hv, rfl⟩ := workerStep_eq hstep
    have hmove := WorkerView.step_move hv
    intro j
    by_cases hj : j = i
    · subst hj
      simp only [System.setView, Function.update_self]
      rw [length_entries hmove]
      exact hmove.cursor (h j)
    · simp only [System.setView, Function.update_of_ne hj] at hlen ⊢
      exact (h j).mono hlen
  | cleanup hstep => exact hworkers (cleanupStep_frame hstep).1.workers
  | tick | wakeMsg => exact hworkers rfl
  | @wakeArgs i =>
    intro j
    by_cases hj : j = i
    · subst hj
      simpa [Cursor] using h j
    · simpa [hj] using h j

end

/-- The invariants of the server: the pool, the connections and the pointers. -/
structure Good (n : Nat) (s : System) : Prop where
  pool : Pool n s
  owned : Owned n s
  cursors : Cursors s

/-- **The invariants** hold in every run. -/
theorem reachable_good {args : Args} {start : Timespec} {s : System}
    (h : (server args start).Reachable s) : Good args.numWorkers s :=
  h.invariant_ofFn (I := Good args.numWorkers) ⟨pool_init _ _, owned_init _ _, fun _ => trivial⟩
    fun _ _ _ hi hs => ⟨step_keeps_pool hi.pool hs, step_keeps_owned hi.pool hi.owned hs,
      step_keeps_cursors hi.pool hi.cursors hs⟩

/-! ## The entries that the source appends -/

section
variable {args : Args} {start : Timespec} {s s' : System} {l : Label}

/-- The entries that wait to be inserted are as `init_msg_entry` made them. -/
def SrcFresh (s : System) : Prop :=
  ∀ entry, s.src = .lock entry ∨ s.src = .insert entry →
    entry = initMsgEntry entry.timestamp entry.carried

theorem step_keeps_srcFresh (h : SrcFresh s) (hs : s.step args l = some s') : SrcFresh s' := by
  rcases step_src hs with heq | ⟨msg, -, hs⟩
  · rw [SrcFresh, heq]
    exact h
  cases srcStep_move hs with
  | nothing => exact h
  | stamp =>
    rintro entry (hentry | hentry) <;> cases hentry
    rfl
  | lock hpc =>
    rintro entry' (hentry | hentry) <;> cases hentry
    exact h _ (.inl hpc)
  | parsed | insert | broadcast | unlock =>
    rintro entry (hentry | hentry) <;> cases hentry

theorem reachable_srcFresh (h : (server args start).Reachable s) : SrcFresh s := by
  refine LTS.Reachable.invariant_ofFn (I := SrcFresh) ?_ (fun _ _ _ => step_keeps_srcFresh) h
  rintro entry (hentry | hentry) <;> cases hentry

end

end WireStorm
