import WireStorm.Cursor

/-!
# What a worker sees

The part of the server that the steps of a worker depend on (`Agree`): the entries
with its own flag of each mask (`MsgEntry.seenBy`), and its variables but for the
mutex of its arguments, the wake-up and the number of its connection
(`Worker.core`). Two steps of a worker from views that agree, with the same
outcome of `is_alive` or `send`, lead to views that agree (`Agree.step`).
-/

namespace WireStorm

/-! ## Entries -/

namespace MsgEntry

/-- An entry as worker `i` sees it: the timestamp, the message, and its own flag of
the mask, `none` once the data is freed. -/
def seenBy (i : Nat) (entry : MsgEntry) : Timespec × CtmpMsg × Option Bool :=
  (entry.timestamp, entry.carried, entry.isSent i)

section
variable {i j : Nat} {a b a' : MsgEntry}

theorem freed_iff_seenBy (entry : MsgEntry) : entry.Freed ↔ (entry.seenBy i).2.2 = none := by
  simp [Freed, entry.freed_iff, seenBy, isSent]

theorem canForward_congr (h : a.seenBy i = b.seenBy i) (ts : Timespec) :
    a.canForward i ts = b.canForward i ts := by
  obtain ⟨hts, -, hsent⟩ : a.timestamp = b.timestamp ∧ a.carried = b.carried ∧
      a.isSent i = b.isSent i := by simpa [seenBy] using h
  rw [canForward, canForward, hts, hsent]

theorem msg_congr (h : a.seenBy i = b.seenBy i) : a.msg = b.msg := by
  have hcarried : a.carried = b.carried := congrArg (·.2.1) h
  have hfreed : a.Freed ↔ b.Freed := by
    rw [a.freed_iff_seenBy (i := i), b.freed_iff_seenBy (i := i), h]
  cases ha : a.msg with
  | none => exact (hfreed.mp ha).symm
  | some m =>
    cases hb : b.msg with
    | none =>
      rw [hfreed.mpr hb] at ha
      cases ha
    | some m' => rw [a.msg_eq m ha, b.msg_eq m' hb, hcarried]

/-- `set_sent` of a worker writes its own flag. -/
theorem seenBy_setSent {val : Bool} (h : a.setSent i val = some a') :
    a'.seenBy i = (a.timestamp, a.carried, some val) := by
  obtain ⟨⟨hts, hcarried⟩, -, mask, -, hsent⟩ := setSent_eq_some h
  simp [seenBy, hts, hcarried, isSent, hsent, isSet_setBit]

/-- `set_sent` of a worker that does not share the flag. -/
theorem seenBy_setSent_of_ne {val : Bool} (hij : j % 32 ≠ i % 32) (h : a.setSent j val = some a') :
    a'.seenBy i = a.seenBy i := by
  obtain ⟨⟨hts, hcarried⟩, -, mask, hmask, hsent⟩ := setSent_eq_some h
  simp [seenBy, hts, hcarried, isSent, hsent, hmask, isSet_setBit, hij]

theorem setSent_congr (h : a.seenBy i = b.seenBy i) (val : Bool) :
    (a.setSent i val = none ∧ b.setSent i val = none) ∨
      ∃ a' b', a.setSent i val = some a' ∧ b.setSent i val = some b' ∧ a'.seenBy i = b'.seenBy i := by
  have hfreed : a.Freed ↔ b.Freed := by
    rw [a.freed_iff_seenBy (i := i), b.freed_iff_seenBy (i := i), h]
  cases ha : a.setSent i val with
  | none => exact .inl ⟨rfl, setSent_eq_none.mpr (hfreed.mp (setSent_eq_none.mp ha))⟩
  | some a' =>
    cases hb : b.setSent i val with
    | none =>
      rw [setSent_eq_none.mpr (hfreed.mpr (setSent_eq_none.mp hb))] at ha
      cases ha
    | some b' =>
      have hts : a.timestamp = b.timestamp := congrArg (·.1) h
      have hcarried : a.carried = b.carried := congrArg (·.2.1) h
      exact .inr ⟨a', b', rfl, rfl, by rw [seenBy_setSent ha, seenBy_setSent hb, hts, hcarried]⟩

end

end MsgEntry

theorem map_set_seenBy {i : Nat} {es es' : List MsgEntry} {a b : MsgEntry} {e : Nat}
    (h : es.map (·.seenBy i) = es'.map (·.seenBy i)) (hab : a.seenBy i = b.seenBy i) :
    (es.set e a).map (·.seenBy i) = (es'.set e b).map (·.seenBy i) := by
  rw [List.map_set, List.map_set, h, hab]

/-- A change of an entry as worker `i` sees it. -/
theorem map_set_eq_modify {i e : Nat} {es : List MsgEntry} {entry entry' : MsgEntry}
    (hentry : es[e]? = some entry)
    {f : Timespec × CtmpMsg × Option Bool → Timespec × CtmpMsg × Option Bool}
    (h : entry'.seenBy i = f (entry.seenBy i)) :
    (es.set e entry').map (·.seenBy i) = (es.map (·.seenBy i)).modify e f := by
  apply List.ext_getElem?
  intro j
  rw [List.map_set]
  by_cases hj : e = j
  · subst hj
    obtain ⟨hlt, -⟩ := List.getElem?_eq_some_iff.mp hentry
    rw [List.getElem?_set_self (by simpa using hlt), List.getElem?_modify_eq, List.getElem?_map,
      hentry, h]
    rfl
  · rw [List.getElem?_set_ne hj, List.getElem?_modify_ne _ _ hj]

/-- The entry at `e` of two lists that worker `i` sees alike. -/
theorem getElem?_seenBy {i e : Nat} {es es' : List MsgEntry} {entry : MsgEntry}
    (h : es.map (·.seenBy i) = es'.map (·.seenBy i)) (hentry : es[e]? = some entry) :
    ∃ entry', es'[e]? = some entry' ∧ entry.seenBy i = entry'.seenBy i := by
  have hmap := congrArg (·[e]?) h
  simp only [List.getElem?_map, hentry, Option.map_some] at hmap
  obtain ⟨entry', hentry', heq⟩ := Option.map_eq_some_iff.mp hmap.symm
  exact ⟨entry', hentry', heq.symm⟩

/-- `get_msg_entry` returns or goes on alike on two queues of one length. -/
theorem getMsgEntry_congr {t : Tid} {current prev : Option Nat} {toStart : Bool} {g : GetPc}
    {q₁ q₂ q₁' q₂' : MsgQueue} {r₁ r₂ : GetMsg} (hlen : q₁.entries.length = q₂.entries.length)
    (h₁ : getMsgEntry t current prev toStart g q₁ = some (q₁', r₁))
    (h₂ : getMsgEntry t current prev toStart g q₂ = some (q₂', r₂)) : r₁ = r₂ := by
  have hempty : ∀ {q q' : MsgQueue}, q.entries.length = q'.entries.length → q.isEmpty = q'.isEmpty := by
    intro q q' hlen
    rw [Bool.eq_iff_iff, MsgQueue.isEmpty, MsgQueue.isEmpty, List.isEmpty_iff_length_eq_zero,
      List.isEmpty_iff_length_eq_zero, hlen]
  cases g with
  | test =>
    cases current with
    | none =>
      cases h₁
      cases h₂
      rfl
    | some e =>
      cases h₁
      cases h₂
      rw [hempty hlen]
  | lock =>
    obtain ⟨p₁, hp₁, heq₁⟩ := Option.map_eq_some_iff.mp h₁
    obtain ⟨p₂, hp₂, heq₂⟩ := Option.map_eq_some_iff.mp h₂
    have hlen' : p₁.entries.length = p₂.entries.length := by
      rw [MsgQueue.entries_acquire hp₁, MsgQueue.entries_acquire hp₂, hlen]
    cases prev with
    | none =>
      cases heq₁
      cases heq₂
      rfl
    | some p =>
      cases heq₁
      cases heq₂
      rw [hempty hlen']
  | first =>
    simp only [getMsgEntry] at h₁ h₂
    rw [hempty hlen] at h₁
    split at h₁ <;> rename_i hif <;> simp only [hif] at h₂ <;> cases h₁ <;> cases h₂ <;> rfl
  | waitFirst =>
    obtain ⟨p₁, -, heq₁⟩ := Option.map_eq_some_iff.mp h₁
    obtain ⟨p₂, -, heq₂⟩ := Option.map_eq_some_iff.mp h₂
    cases heq₁
    cases heq₂
    rfl
  | next p =>
    have hnext : q₁.next p = q₂.next p := by rw [MsgQueue.next, MsgQueue.next, hlen]
    simp only [getMsgEntry, hnext] at h₁ h₂
    split at h₁ <;> rename_i hif <;> simp only [hif] at h₂ <;> cases h₁ <;> cases h₂ <;> rfl
  | waitNext p =>
    obtain ⟨p₁, -, heq₁⟩ := Option.map_eq_some_iff.mp h₁
    obtain ⟨p₂, -, heq₂⟩ := Option.map_eq_some_iff.mp h₂
    cases heq₁
    cases heq₂
    rfl
  | unlock e =>
    cases h₁
    cases h₂
    rfl

/-! ## A worker and its step -/

/-- The variables of a worker that its steps depend on: not the mutex, nor whether
it was woken up, nor the number of its connection. -/
def Worker.core (w : Worker) : Worker :=
  { w with lock := none, asleep := false, clientFd := none }

theorem Worker.core_eq {w w' : Worker} (h : w.core = w'.core) :
    w.status = w'.status ∧ w.timestamp = w'.timestamp ∧ w.pc = w'.pc ∧ w.prev = w'.prev ∧
      w.next = w'.next ∧ w.bytesSent = w'.bytesSent := by
  simp only [core, Worker.mk.injEq, true_and] at h
  exact h

/-- Two views of worker `i` that differ in nothing that its steps depend on. -/
structure Agree (i : Nat) (v w : WorkerView) : Prop where
  entries : v.queue.entries.map (·.seenBy i) = w.queue.entries.map (·.seenBy i)
  core : v.worker.core = w.worker.core
  out : v.client.out = w.client.out

namespace Agree

variable {i e : Nat} {l : LoopPc} {o : Outcome} {v w v' w' : WorkerView}

theorem length_eq (h : Agree i v w) : v.queue.entries.length = w.queue.entries.length := by
  simpa using congrArg List.length h.entries

/-- Both go on at `l`. -/
theorem goto (h : Agree i v w) (e : Nat) (l : LoopPc) {q q' : MsgQueue} {m m' : StatusMask}
    {c c' : Client} (hq : q.entries.map (·.seenBy i) = q'.entries.map (·.seenBy i))
    (hc : c.out = c'.out) :
    Agree i { v.goto e l with queue := q, mask := m, client := c }
      { w.goto e l with queue := q', mask := m', client := c' } :=
  ⟨hq, congrArg (fun u : Worker => { u with pc := .body e l }) h.core, hc⟩

/-- The steps that look at the entry see it alike. -/
theorem exists_entry (h : Agree i v w)
    (hl : l = .forward ∨ (∃ p, l = .send p) ∨ l = .mark ∨ l = .reset)
    (hv : v.bodyStep i o e l = some v') :
    ∃ a b, v.queue.entries[e]? = some a ∧ w.queue.entries[e]? = some b ∧
      a.seenBy i = b.seenBy i := by
  cases hentry : v.queue.entries[e]? with
  | none => rcases hl with rfl | ⟨p, rfl⟩ | rfl | rfl <;> simp [WorkerView.bodyStep, hentry] at hv
  | some a =>
    obtain ⟨b, hentry', hseen⟩ := getElem?_seenBy h.entries hentry
    exact ⟨a, b, rfl, hentry', hseen⟩

/-- The bodies of the loop agree. -/
theorem bodyStep (h : Agree i v w) (hv : v.bodyStep i o e l = some v')
    (hw : w.bodyStep i o e l = some w') : Agree i v' w' := by
  obtain ⟨hstatus, hts, -, -, -, hbytes⟩ := Worker.core_eq h.core
  have hlen := h.length_eq
  have hgoto : ∀ l' : LoopPc, Agree i (v.goto e l') (w.goto e l') := fun l' =>
    h.goto e l' h.entries h.out
  have hcore : ∀ l' : LoopPc, ({ v.worker.core with pc := .body e l' } : Worker) =
      { w.worker.core with pc := .body e l' } := fun l' => by rw [h.core]
  cases l with
  | alive =>
    simp only [WorkerView.bodyStep] at hv hw
    cases ho : o.alive <;> rw [ho] at hv hw <;> cases hv <;> cases hw
    · exact h.goto e .close h.entries h.out
    · exact hgoto .forward
  | forward =>
    obtain ⟨a, b, hentry, hentry', hseen⟩ := h.exists_entry (.inl rfl) hv
    simp only [WorkerView.bodyStep] at hv hw
    simp only [hentry, hentry', MsgEntry.canForward_congr hseen, hts] at hv hw
    cases hcan : b.canForward i w.worker.timestamp with
    | none =>
      rw [hcan] at hv hw
      cases hv
      cases hw
      exact ⟨h.entries, h.core, h.out⟩
    | some fwd =>
      cases fwd <;> rw [hcan] at hv hw <;> cases hv <;> cases hw
      · exact hgoto .lockNext
      · exact h.goto e (.send (.header 0)) h.entries h.out
  | send p =>
    obtain ⟨a, b, hentry, hentry', hseen⟩ := h.exists_entry (.inr (.inl ⟨p, rfl⟩)) hv
    simp only [WorkerView.bodyStep] at hv hw
    simp only [hentry, hentry', MsgEntry.msg_congr hseen] at hv hw
    cases hmsg : b.msg with
    | none =>
      rw [hmsg] at hv hw
      cases hv
      cases hw
      exact ⟨h.entries, h.core, h.out⟩
    | some msg =>
      simp only [hmsg] at hv hw
      have hout := h.out
      rcases hround : sendCtmpMsgRound msg p o.send with ⟨bs, p' | res⟩
      · simp only [hround] at hv hw
        cases hv
        cases hw
        exact h.goto e (.send p') h.entries (by simp only [Client.wrote, hout])
      · simp only [hround] at hv hw
        cases hv
        cases hw
        refine ⟨h.entries, ?_, ?_⟩
        · exact congrArg (fun u : Worker => { u with pc := .body e .mark, bytesSent := res }) h.core
        · simp only [Client.sent]
          split <;> simp only [hout]
  | mark =>
    obtain ⟨a, b, hentry, hentry', hseen⟩ := h.exists_entry (.inr (.inr (.inl rfl))) hv
    simp only [WorkerView.bodyStep] at hv hw
    simp only [hentry, hentry'] at hv hw
    rcases MsgEntry.setSent_congr hseen true with ⟨ha, hb⟩ | ⟨a', b', ha, hb, hseen'⟩
    · rw [ha] at hv
      rw [hb] at hw
      cases hv
      cases hw
      exact ⟨h.entries, h.core, h.out⟩
    · rw [ha] at hv
      rw [hb] at hw
      cases hv
      cases hw
      exact h.goto e .lockNext (map_set_seenBy h.entries hseen') h.out
  | lockNext =>
    obtain ⟨q, hq, rfl⟩ := Option.map_eq_some_iff.mp hv
    obtain ⟨q', hq', rfl⟩ := Option.map_eq_some_iff.mp hw
    refine h.goto e .readNext ?_ h.out
    rw [MsgQueue.entries_acquire hq, MsgQueue.entries_acquire hq']
    exact h.entries
  | readNext =>
    cases hv
    cases hw
    refine ⟨h.entries, ?_, h.out⟩
    have hread : v.queue.next e = w.queue.next e := by rw [MsgQueue.next, MsgQueue.next, hlen]
    simp only [hread]
    exact congrArg (fun u : Worker => { u with pc := .body e .unlockNext, next := w.queue.next e })
      h.core
  | unlockNext =>
    cases hv
    cases hw
    exact h.goto e .test h.entries h.out
  | test =>
    cases hv
    cases hw
    rw [hbytes]
    exact hgoto _
  | close =>
    cases hv
    cases hw
    exact h.goto e .lockArgs h.entries h.out
  | lockArgs =>
    simp only [WorkerView.bodyStep] at hv hw
    split at hv <;> cases hv
    split at hw <;> cases hw
    exact ⟨h.entries, hcore .setReady, h.out⟩
  | setReady =>
    cases hv
    cases hw
    exact ⟨h.entries, congrArg (fun u : Worker => { u with pc := .body e .lockMask, status := .ready })
      h.core, h.out⟩
  | lockMask =>
    obtain ⟨m, -, rfl⟩ := Option.map_eq_some_iff.mp hv
    obtain ⟨m', -, rfl⟩ := Option.map_eq_some_iff.mp hw
    exact h.goto e .clearBit h.entries h.out
  | clearBit =>
    cases hv
    cases hw
    exact h.goto e .unlockMask h.entries h.out
  | unlockMask =>
    cases hv
    cases hw
    exact h.goto e .waitBusy h.entries h.out
  | waitBusy =>
    simp only [WorkerView.bodyStep] at hv hw
    by_cases hbusy : v.worker.status = .busy
    · rw [if_pos hbusy] at hv
      rw [if_pos (hstatus.symm.trans hbusy)] at hw
      cases hv
      cases hw
      exact hgoto .reset
    · rw [if_neg hbusy] at hv
      rw [if_neg fun hbusy' => hbusy (hstatus.trans hbusy')] at hw
      cases hv
      cases hw
      exact ⟨h.entries, hcore .asleep, h.out⟩
  | asleep =>
    simp only [WorkerView.bodyStep] at hv hw
    split at hv <;> cases hv
    split at hw <;> cases hw
    exact ⟨h.entries, hcore .waitBusy, h.out⟩
  | reset =>
    obtain ⟨a, b, hentry, hentry', hseen⟩ := h.exists_entry (.inr (.inr (.inr rfl))) hv
    simp only [WorkerView.bodyStep] at hv hw
    simp only [hentry, hentry'] at hv hw
    rcases MsgEntry.setSent_congr hseen false with ⟨ha, hb⟩ | ⟨a', b', ha, hb, hseen'⟩
    · rw [ha] at hv
      rw [hb] at hw
      cases hv
      cases hw
      exact hgoto .unlockArgs
    · rw [ha] at hv
      rw [hb] at hw
      cases hv
      cases hw
      exact h.goto e .unlockArgs (map_set_seenBy h.entries hseen') h.out
  | unlockArgs =>
    cases hv
    cases hw
    exact ⟨h.entries, hcore .advance, h.out⟩
  | advance =>
    cases hv
    cases hw
    exact ⟨h.entries, congrArg (fun u : Worker => { u with pc := .get u.next .test, prev := some e })
      h.core, h.out⟩

/-- **Steps of a worker** from views that agree lead to views that agree. -/
theorem step (h : Agree i v w) (hv : v.step i o = some v') (hw : w.step i o = some w') :
    Agree i v' w' := by
  obtain ⟨-, -, hpcs, hprev, -, -⟩ := Worker.core_eq h.core
  unfold WorkerView.step at hv hw
  cases hpc : v.worker.pc with
  | idle =>
    rw [hpc] at hv
    cases hv
  | body e l =>
    rw [hpc] at hv
    rw [← hpcs, hpc] at hw
    exact h.bodyStep hv hw
  | get current g =>
    rw [hpc] at hv
    rw [← hpcs, hpc, ← hprev] at hw
    rcases hget : getMsgEntry (.worker i) current v.worker.prev false g v.queue with - | ⟨q, r⟩
    · simp only [hget] at hv
      cases hv
    · rcases hget' : getMsgEntry (.worker i) current v.worker.prev false g w.queue with - | ⟨q', r'⟩
      · simp only [hget'] at hw
        cases hw
      · obtain rfl := getMsgEntry_congr h.length_eq hget hget'
        have hq : q.entries.map (·.seenBy i) = q'.entries.map (·.seenBy i) := by
          rw [entries_getMsgEntry hget, entries_getMsgEntry hget']
          exact h.entries
        simp only [hget] at hv
        simp only [hget'] at hw
        cases r with
        | more g' =>
          cases hv
          cases hw
          exact ⟨hq, congrArg (fun u : Worker => { u with pc := .get current g' }) h.core, h.out⟩
        | ret e =>
          cases hv
          cases hw
          exact h.goto e .alive hq h.out

end Agree

end WireStorm
