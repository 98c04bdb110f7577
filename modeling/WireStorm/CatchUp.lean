import WireStorm.Deadlock
import WireStorm.Expiry
import WireStorm.Gapless
import Mathlib.Data.List.Sort

/-!
# A worker catches up

What a receiver has not been sent yet, it can be sent. A worker in a session has at most a
bounded number of steps to the next entry (`WorkerPc.toGo`), and comes to the end of the queue
by its own steps and steps of threads that give back a mutex, as long as its connection is
alive, its calls of `send` succeed and no entry that it needs is freed. There the receiver has
been written the messages that were enqueued since it was accepted, all of them and nothing
else (`catches_up`).
-/

namespace WireStorm

open Framing (frames_none)
open Mutex (OthersStep)

/-! ## A send that succeeds -/

/-- The connection is alive, and `send` writes all that it is given. -/
def Outcome.ready : Outcome := ⟨true, .bytes 65536⟩

theorem sendMsgRound_all {buf : List UInt8} {total n : Nat} (hn : buf.length ≤ n)
    (ht : total ≤ buf.length) : sendMsgRound buf total (.bytes n) = (buf.drop total, .ret 0) := by
  have htake : (buf.drop total).take n = buf.drop total :=
    List.take_of_length_le (by rw [List.length_drop]; omega)
  have hsum : total + (buf.drop total).length = buf.length := by rw [List.length_drop]; omega
  simp only [sendMsgRound, htake]
  split
  · rename_i hnil
    have htotal : total = buf.length := by
      rw [hnil] at hsum
      exact hsum
    rw [hnil, sendMsgResult, if_pos htotal]
  · rw [hsum, sendMsgNext, if_neg (Nat.lt_irrefl _), sendMsgResult, if_pos rfl]

/-- A call of `send` that writes everything ends its part of the image. -/
theorem sendCtmpMsgRound_ready {msg : CtmpMsg} {p : SendPc} (hp : p.Within msg) :
    ∃ bs, sendCtmpMsgRound msg p Outcome.ready.send =
      (bs, match p with
        | .header _ => .more (.data 0)
        | .data _ => .ret 0) := by
  cases p with
  | header total =>
    have hlen : msg.header.bytes.length = headerLength := msg.header.length_eq
    have htotal : total ≤ msg.header.bytes.length := by
      rw [hlen]
      exact Nat.le_of_lt hp
    have hround : sendMsgRound msg.header.bytes total (.bytes 65536) = (_, .ret 0) :=
      sendMsgRound_all (by rw [hlen]; decide) htotal
    refine ⟨msg.header.bytes.drop total, ?_⟩
    simp only [sendCtmpMsgRound, Outcome.ready, hround]
    rfl
  | data total =>
    have hlen : msg.data.length ≤ 65536 := by
      rw [msg.data_length]
      exact Nat.le_of_lt msg.len.toNat_lt
    refine ⟨msg.data.drop total, ?_⟩
    simp only [sendCtmpMsgRound, Outcome.ready, sendMsgRound_all hlen hp]

/-! ## The way to the next entry -/

/-- A bound on the steps up to the next entry. -/
def GetPc.toGo : GetPc → Nat
  | .test => 15
  | .lock | .waitFirst | .waitNext _ => 14
  | .first | .next _ => 13
  | .unlock _ => 12

def LoopPc.toGo : LoopPc → Nat
  | .asleep => 24
  | .waitBusy => 23
  | .reset => 22
  | .unlockArgs => 21
  | .lockNext => 20
  | .readNext => 19
  | .unlockNext => 18
  | .test => 17
  | .advance => 16
  | .alive => 5
  | .forward => 4
  | .send (.header _) => 3
  | .send (.data _) => 2
  | .mark => 1
  | .close | .lockArgs | .setReady | .lockMask | .clearBit | .unlockMask => 0

def WorkerPc.toGo : WorkerPc → Nat
  | .idle => 0
  | .get _ g => g.toGo
  | .body _ l => l.toGo

/-- Worker `i` can go on with its session: it is not about to give its connection up, and the
entries that it needs have their data. -/
structure GoesOn (i : Nat) (st : Stage) (v : WorkerView) : Prop where
  cursor : Cursor v.queue.entries.length v.worker
  ok : WorkerOk st i v.worker
  live : v.worker.link st = .live
  created : v.worker.pc ≠ .idle
  goes : v.worker.task.givesUp = false
  bytes : 0 ≤ v.worker.bytesSent
  timestamp : v.worker.timestamp = v.client.acceptTs
  stocked : Stocked v.queue.entries v.worker.pos v.worker.task v.client
  session : Session v.queue.entries v.worker.pos v.worker.task v.client

/-- What a step leaves as it should be. -/
structure Unharmed (v v' : WorkerView) : Prop where
  fault : v'.fault = v.fault
  closed : v'.client.closed = v.client.closed
  created : v'.worker.pc ≠ .idle
  goes : v'.worker.task.givesUp = false
  bytes : 0 ≤ v'.worker.bytesSent

/-- A step brings the worker closer to the next entry, or past one, or it finds none. -/
inductive Advance (v v' : WorkerView) : Prop
  | nearer (hpos : v'.worker.pos = v.worker.pos) (hgo : v'.worker.pc.toGo < v.worker.pc.toGo)
  | past (hpos : v'.worker.pos = v.worker.pos + 1)
      (hlt : v.worker.pos < v.queue.entries.length) (hgo : v'.worker.pc.toGo ≤ 20)
  | last (hpos : v'.worker.pos = v.queue.entries.length) (htask : v'.worker.task = .seek)

section
variable {i : Nat} {st : Stage} {v v' : WorkerView}

/-- A step of `get_msg_entry` in a session. -/
theorem GoesOn.get {current : Option Nat} {g : GetPc} (h : GoesOn i st v)
    (hpc : v.worker.pc = .get current g) (hs : v.step i .ready = some v') :
    Unharmed v v' ∧ Advance v v' := by
  have hcursor := h.cursor
  simp only [Cursor, hpc] at hcursor
  obtain ⟨hseek, -⟩ := hcursor
  have hpos : v.worker.pos = seekPos current v.worker.prev := by simp only [Worker.pos, hpc]
  have hle := h.cursor.pos_le
  rw [hpos] at hle
  simp only [WorkerView.step, hpc] at hs
  split at hs
  · cases hs
  · rename_i q g' hget
    cases hs
    refine ⟨⟨rfl, rfl, by simp, rfl, h.bytes⟩, ?_⟩
    -- the call sleeps at the end of the queue
    have hlast : seekPos current v.worker.prev = v.queue.entries.length → Advance v
        { v with queue := q, worker := { v.worker with pc := .get current g' } } :=
      fun heq => .last heq rfl
    cases getMsgEntry_move hget with
    | sleepFirst hempty => exact hlast (by omega)
    | @sleepNext p hnext =>
      have hprev : v.worker.prev = some p := hseek.next p (.inl rfl)
      rw [hseek.current_eq (by simp), hprev] at hle
      refine hlast ?_
      rw [hseek.current_eq (by simp), hprev]
      exact Nat.le_antisymm hle (Nat.le_of_not_lt hnext)
    | enter | lockFirst | lockNext | first | wakeFirst | next | wakeNext =>
      refine .nearer hpos.symm ?_
      rw [hpc]
      exact Nat.lt_succ_self _
  · rename_i q e hget
    cases hs
    obtain ⟨hlt, he⟩ := getMsgEntry_spec hseek hget
    refine ⟨⟨rfl, rfl, by simp [WorkerView.goto], rfl, h.bytes⟩, .nearer ?_ ?_⟩
    · rw [hpos]
      exact he
    · rw [hpc]
      cases getMsgEntry_move hget <;> simp [WorkerPc.toGo, GetPc.toGo, LoopPc.toGo, WorkerView.goto]

/-- A step in the body of the loop in a session. -/
theorem GoesOn.body {e : Nat} {l : LoopPc} (h : GoesOn i st v) (hpc : v.worker.pc = .body e l)
    (hs : v.step i .ready = some v') : Unharmed v v' ∧ Advance v v' := by
  have hcursor := h.cursor
  simp only [Cursor, hpc] at hcursor
  obtain ⟨hlt, hnext⟩ := hcursor
  have hnonneg : decide (v.worker.bytesSent < 0) = false :=
    decide_eq_false (Int.not_lt.mpr h.bytes)
  have hlive := h.live
  have hgoes := h.goes
  simp only [Worker.link, hpc] at hlive
  simp only [Worker.task, hpc] at hgoes
  simp only [WorkerView.step, hpc] at hs
  -- the data of the entry are there when they are used
  have hentry := List.getElem?_eq_getElem hlt
  have hthere : ∀ {f}, ¬Touches i v v.queue.entries[e] l f :=
    h.stocked.not_touches h.timestamp hpc hentry
  cases l with
  | alive =>
    cases hs
    refine ⟨⟨rfl, rfl, by simp [WorkerView.goto], rfl, h.bytes⟩, .nearer ?_ ?_⟩
    · simp only [Worker.pos, hpc, WorkerView.goto]
    · rw [hpc]
      exact Nat.lt_succ_self _
  | forward =>
    have hpos : v.worker.pos = e := by simp only [Worker.pos, hpc]
    simp only [WorkerView.bodyStep, hentry] at hs
    split at hs
    · rename_i hfreed
      exact absurd (.forward hfreed) hthere
    · cases hs
      refine ⟨⟨rfl, rfl, by simp [WorkerView.goto], hnonneg, h.bytes⟩, .past ?_ (hpos ▸ hlt) ?_⟩
      · rw [hpos]
        rfl
      · exact Nat.le_refl _
    · cases hs
      refine ⟨⟨rfl, rfl, by simp [WorkerView.goto], rfl, h.bytes⟩, .nearer ?_ ?_⟩
      · rw [hpos]
        rfl
      · rw [hpc]
        exact Nat.lt_succ_self _
  | send p =>
    have hpos : v.worker.pos = e := by simp only [Worker.pos, hpc]
    have htask : v.worker.task = .send p := by simp only [Worker.task, hpc]
    have hprogress := h.session.progress
    rw [htask, hpos] at hprogress
    obtain ⟨-, -, entry, hentry', -, hwithin⟩ := hprogress
    cases hentry.symm.trans hentry'
    obtain ⟨msg, hmsg⟩ := Option.ne_none_iff_exists'.mp fun hfreed => hthere (.send hfreed)
    rw [← MsgEntry.msg_eq _ msg hmsg] at hwithin
    obtain ⟨bs, hround⟩ := sendCtmpMsgRound_ready hwithin
    simp only [WorkerView.bodyStep, hentry, hmsg, hround] at hs
    cases p with
    | header total =>
      cases hs
      refine ⟨⟨rfl, rfl, by simp [WorkerView.goto], rfl, h.bytes⟩, .nearer ?_ ?_⟩
      · rw [hpos]
        rfl
      · rw [hpc]
        exact Nat.lt_succ_self _
    | data total =>
      cases hs
      refine ⟨⟨rfl, rfl, by simp, rfl, le_refl _⟩, .nearer ?_ ?_⟩
      · rw [hpos]
        rfl
      · rw [hpc]
        exact Nat.lt_succ_self _
  | mark =>
    have hpos : v.worker.pos = e := by simp only [Worker.pos, hpc]
    simp only [WorkerView.bodyStep, hentry] at hs
    split at hs
    · rename_i hfreed
      exact absurd (.mark hfreed) hthere
    · cases hs
      refine ⟨⟨rfl, rfl, by simp [WorkerView.goto], hnonneg, h.bytes⟩, .past ?_ (hpos ▸ hlt) ?_⟩
      · rw [hpos]
        rfl
      · exact Nat.le_refl _
  | lockNext =>
    obtain ⟨q, -, rfl⟩ := Option.map_eq_some_iff.mp hs
    refine ⟨⟨rfl, rfl, by simp [WorkerView.goto], hnonneg, h.bytes⟩, .nearer ?_ ?_⟩
    · simp only [Worker.pos, hpc, WorkerView.goto]
    · rw [hpc]
      exact Nat.lt_succ_self _
  | readNext | unlockNext =>
    cases hs
    refine ⟨⟨rfl, rfl, by simp [WorkerView.goto], hnonneg, h.bytes⟩, .nearer ?_ ?_⟩
    · simp only [Worker.pos, hpc, WorkerView.goto]
    · rw [hpc]
      exact Nat.lt_succ_self _
  | test =>
    have hread : v.worker.next.getD (e + 1) = e + 1 := by
      cases hx : v.worker.next with
      | none => rfl
      | some x => exact (hnext x hx).2
    simp only [WorkerView.bodyStep, if_neg (Int.not_lt.mpr h.bytes)] at hs
    cases hs
    refine ⟨⟨rfl, rfl, by simp [WorkerView.goto], rfl, h.bytes⟩, .nearer ?_ ?_⟩
    · simp only [Worker.pos, hpc, WorkerView.goto, hread]
    · rw [hpc]
      exact Nat.lt_succ_self _
  | close => cases hgoes
  | lockArgs | setReady | lockMask | clearBit | unlockMask => cases hlive
  | waitBusy =>
    have hbusy : v.worker.status = .busy := by
      by_contra hne
      rw [if_neg hne] at hlive
      cases hlive
    simp only [WorkerView.bodyStep, if_pos hbusy] at hs
    cases hs
    refine ⟨⟨rfl, rfl, by simp [WorkerView.goto], rfl, h.bytes⟩, .nearer ?_ ?_⟩
    · simp only [Worker.pos, hpc, WorkerView.goto]
    · rw [hpc]
      exact Nat.lt_succ_self _
  | asleep =>
    simp only [WorkerView.bodyStep] at hs
    split at hs <;> cases hs
    refine ⟨⟨rfl, rfl, by simp, rfl, h.bytes⟩, .nearer ?_ ?_⟩
    · simp only [Worker.pos, hpc]
    · rw [hpc]
      exact Nat.lt_succ_self _
  | reset =>
    simp only [WorkerView.bodyStep, hentry] at hs
    split at hs <;> cases hs
    all_goals
      refine ⟨⟨rfl, rfl, by simp [WorkerView.goto], rfl, h.bytes⟩, .nearer ?_ ?_⟩
      · simp only [Worker.pos, hpc, WorkerView.goto]
      · rw [hpc]
        exact Nat.lt_succ_self _
  | unlockArgs =>
    cases hs
    refine ⟨⟨rfl, rfl, by simp, rfl, h.bytes⟩, .nearer ?_ ?_⟩
    · simp only [Worker.pos, hpc]
    · rw [hpc]
      exact (by decide : (16 : Nat) < 21)
  | advance =>
    cases hs
    refine ⟨⟨rfl, rfl, by simp, rfl, h.bytes⟩, .nearer ?_ ?_⟩
    · simp only [Worker.pos, hpc, seekPos]
      cases v.worker.next <;> rfl
    · rw [hpc]
      exact Nat.lt_succ_self _

/-- **A step of the worker** takes it closer to the end of the queue. -/
theorem GoesOn.advance (h : GoesOn i st v) (hs : v.step i .ready = some v') :
    Unharmed v v' ∧ Advance v v' := by
  cases hpc : v.worker.pc with
  | idle => exact absurd hpc h.created
  | get current g => exact h.get hpc hs
  | body e l => exact h.body hpc hs

end

/-! ## What the other threads do meanwhile -/

section
variable {args : Args} {start : Timespec} {s s' : System} {l : Label} {i c : Nat} {t : Tid}

/-- A step of another thread leaves a worker where it is in its loop. -/
theorem step_loop (hp : Pool args.numWorkers s) (hs : s.step args l = some s') (hl : l.tid = some t)
    (ht : t ≠ .worker i) (hcreated : (s.workers i).pc ≠ .idle) :
    (s'.workers i).pc = (s.workers i).pc ∧ (s'.workers i).bytesSent = (s.workers i).bytesSent := by
  cases step_move hs with
  | src hstep =>
    rw [(srcStep_frame hstep).workers]
    exact ⟨rfl, rfl⟩
  | dispatcher hstep =>
    cases dispatcherStep_move hp hstep with
    | calm _ _ _ _ _ _ _ _ hloop => exact ⟨(hloop i).pc, (hloop i).bytesSent⟩
    | accept | clock => exact ⟨rfl, rfl⟩
    | @setFd fd k | @setTime fd k =>
      by_cases hi : i = k
      · subst hi
        simp
      · simp [hi]
    | @create fd k _ hpc hidle =>
      have hi : i ≠ k := by
        rintro rfl
        exact hcreated hidle
      simp [hi]
  | worker hstep =>
    obtain ⟨fd, v', -, -, rfl⟩ := workerStep_eq hstep
    rename_i j o
    have hi : i ≠ j := by
      rintro rfl
      exact ht (Option.some.inj hl).symm
    simp [System.setView, hi]
  | cleanup hstep =>
    rw [(cleanupStep_frame hstep).1.workers]
    exact ⟨rfl, rfl⟩
  | tick | wakeMsg | wakeArgs => cases hl

/-- A step of another thread leaves a session alone. -/
theorem Serving.others (hg : Good args.numWorkers s) (hserving : Serving s i c)
    (hs : s.step args l = some s') (hl : l.tid = some t) (ht : t ≠ .worker i) :
    Serving s' i c ∧ s'.clients c = s.clients c ∧ (s'.workers i).pos = (s.workers i).pos ∧
      (s'.workers i).task = (s.workers i).task := by
  have hclient : s'.clients c = s.clients c := by
    cases step_client hg hs c with
    | same hclient => exact hclient
    | setup hunassigned => exact absurd (hunassigned.symm.trans hserving.assigned) (by simp)
    | own hl' hserving' =>
      subst hl'
      cases hg.owned.serving_unique hserving hserving'
      exact absurd (Option.some.inj hl).symm ht
  have hserving' : Serving s' i c := by
    refine (hserving.next hg hs).resolve_left fun hclosed => ?_
    rw [hclient, hserving.live] at hclosed
    cases hclosed
  refine ⟨hserving', hclient, ?_⟩
  cases step_session hg hs hserving' with
  | frame _ _ hpos htask => exact ⟨hpos, htask⟩
  | assign _ _ hunassigned => exact absurd (hunassigned.symm.trans hserving.assigned) (by simp)
  | own hl' =>
    subst hl'
    exact absurd (Option.some.inj hl).symm ht

/-- The entries that worker `i` needs for connection `c` have their data, and none of them is
being freed. -/
structure Ahead (s : System) (i c : Nat) : Prop where
  stocked : Stocked s.queue.entries (s.workers i).pos (s.workers i).task (s.clients c)
  cleanup : ∀ e ∈ s.cleanup.pc.freeing,
    ¬Needs s.queue.entries (s.workers i).pos (s.clients c) e

/-- A step that is not the cleanup worker's decision to free an entry. -/
def SparesEntries (s : System) (l : Label) : Prop := l = .cleanup → ∀ e, s.cleanup.pc ≠ .lockFree e

/-- The cleanup worker frees no entry that the worker needs, if it took none. -/
theorem Ahead.step_cleanup (h : Ahead s i c) (hr : (server args start).Reachable s)
    (hs : s.step args l = some s') (hspares : SparesEntries s l)
    (hpos : (s.workers i).pos ≤ (s'.workers i).pos)
    (hts : (s'.clients c).acceptTs = (s.clients c).acceptTs) :
    ∀ e ∈ s'.cleanup.pc.freeing, ¬Needs s'.queue.entries (s'.workers i).pos (s'.clients c) e := by
  have hg := reachable_good hr
  rcases WireStorm.step_cleanup hs with ⟨-, heq⟩ | ⟨hlabel, hstep⟩
  · rintro e he ⟨hle, entry, hentry, hlater⟩
    rw [heq] at he
    rw [hts] at hlater
    have hlt : e < s.queue.entries.length := by
      have hwalk := reachable_walk hr
      unfold CleanupPc.freeing at he
      unfold Walk at hwalk
      split at he
      · rename_i hpc
        cases he
        rwa [hpc] at hwalk
      · cases he
    have hent : Entitled s'.queue.entries (s.clients c) e := ⟨entry, hentry, hlater⟩
    exact h.cleanup e he ⟨hpos.trans hle,
      hent.of_keeps (step_entries hg.pool hg.cursors hs).keeps hlt⟩
  · intro e he
    cases cleanupStep_move hstep with
    | lockFree hpc => exact absurd hpc (hspares hlabel _)
    | _ => cases he

/-! ## To the end of the queue -/

/-- **Worker `i` catches up** for connection `c`: it is in its loop and not about to give the
connection up, has its entries ahead of it, and sent those behind it. -/
structure CatchingUp (s : System) (i c : Nat) : Prop where
  serving : Serving s i c
  created : (s.workers i).pc ≠ .idle
  goes : (s.workers i).task.givesUp = false
  bytes : 0 ≤ (s.workers i).bytesSent
  ahead : Ahead s i c
  sent : SentBefore s.queue.entries ((s.workers i).task.done (s.workers i).pos) (s.clients c)

/-- Worker `i` looks for an entry behind the last one. -/
structure AtEnd (s : System) (i : Nat) : Prop where
  pos : (s.workers i).pos = s.queue.entries.length
  task : (s.workers i).task = .seek

/-- The number of entries when the source has left its critical section. -/
def System.coming (s : System) : Nat := s.queue.entries.length + s.src.inserts.toList.length

/-- A bound on the steps of worker `i` to the end of the queue. -/
def System.toGo (i : Nat) (s : System) : Nat :=
  (s.coming - (s.workers i).pos) * 25 + (s.workers i).pc.toGo

/-- A thread that holds a mutex adds no entry that was not coming. -/
theorem coming_of_holder {r : Lock} (hr : (server args start).Reachable s)
    (hs : s.step args l = some s') (hl : l.tid = some t) (howner : s.owner r = some t) :
    s'.coming = s.coming := by
  have horigins := congrArg List.length (step_origins (reachable_good hr) hs)
  simp only [List.length_append, List.length_map] at horigins
  have hkeep : (∀ msg, l ≠ .src msg) → s'.coming = s.coming := by
    intro hne
    have hsrc : s'.src = s.src := (step_src hs).resolve_right fun ⟨msg, hl, _⟩ => hne msg hl
    rw [System.coming, System.coming, horigins, hsrc]
    cases l with
    | src msg => exact absurd rfl (hne msg)
    | _ => rfl
  cases step_move hs with
  | src hstep =>
    cases hl
    have hin := of_decide_eq_true ((reachable_mutexes hr r .src).mp howner)
    simp only [System.use] at hin
    simp only [List.length_map] at horigins
    rw [System.coming, System.coming, horigins]
    cases srcStep_move hstep with
    | nothing hpc | parsed hpc | stamp hpc | lock hpc =>
      rw [hpc] at hin
      cases hin
    | insert hpc | broadcast hpc | unlock hpc =>
      rw [hpc]
      rfl
  | dispatcher | worker | cleanup | tick | wakeMsg | wakeArgs =>
    exact hkeep fun msg heq => by cases heq

/-- A step of another thread keeps a worker on its way, if it does not take an entry to free. -/
theorem CatchingUp.kept (h : CatchingUp s i c) (hr : (server args start).Reachable s)
    (hs : s.step args l = some s') (hl : l.tid = some t) (ht : t ≠ .worker i)
    (hspares : SparesEntries s l) :
    CatchingUp s' i c ∧ (s'.workers i).pos = (s.workers i).pos ∧
      (s'.workers i).pc = (s.workers i).pc := by
  have hg := reachable_good hr
  obtain ⟨hserving, hclient, hpos, htask⟩ := h.serving.others hg hs hl ht
  obtain ⟨hpc, hbytes⟩ := step_loop hg.pool hs hl ht h.created
  have hentries := step_entries hg.pool hg.cursors hs
  refine ⟨⟨hserving, hpc ▸ h.created, htask ▸ h.goes, hbytes ▸ h.bytes, ⟨?_, ?_⟩, ?_⟩, hpos, hpc⟩
  · rw [hclient, hpos, htask]
    refine h.ahead.stocked.move hentries (reachable_srcFresh hr).holds fun _ => h.ahead.cleanup
  · exact h.ahead.step_cleanup hr hs hspares hpos.ge (by rw [hclient])
  · rw [hclient, hpos, htask]
    exact h.sent.keeps hentries.keeps (hg.cursors i).done_le

/-- A thread that holds a mutex is not about to take an entry to free. -/
theorem sparesEntries_of_holder {r : Lock} (hr : (server args start).Reachable s)
    (hl : l.tid = some t) (howner : s.owner r = some t) : SparesEntries s l := by
  intro hcleanup e hpc
  subst hcleanup
  cases hl
  have hin := of_decide_eq_true ((reachable_mutexes hr r .cleanup).mp howner)
  rw [System.use, hpc] at hin
  cases hin

/-- Steps of other threads that hold a mutex keep a worker on its way. -/
theorem CatchingUp.others (h : CatchingUp s i c)
    (hstep : OthersStep Label.tid System.owner (Sound args start) (.worker i) s l s')
    (hs : s.step args l = some s') : CatchingUp s' i c ∧ s'.toGo i ≤ s.toGo i := by
  obtain ⟨⟨hr, -⟩, u, r, hl, hu, howner⟩ := hstep
  obtain ⟨h', hpos, hpc⟩ := h.kept hr hs hl hu (sparesEntries_of_holder hr hl howner)
  refine ⟨h', ?_⟩
  rw [System.toGo, System.toGo, coming_of_holder hr hs hl howner, hpos, hpc]

/-- What a worker in a session sees. -/
theorem CatchingUp.goesOn (h : CatchingUp s i c) (hr : (server args start).Reachable s) :
    GoesOn i (s.stage i) (s.view i c) where
  cursor := (reachable_good hr).cursors i
  ok := (reachable_pool hr).worker i
  live := ((reachable_good hr).owned.serving_link h.serving).1
  created := h.created
  goes := h.goes
  bytes := h.bytes
  timestamp := ((reachable_good hr).owned.serving_link h.serving).2
  stocked := h.ahead.stocked
  session := (reachable_streams hr).session i c h.serving

/-- A worker in a session that is parked while no mutex is in its way is at the end of the
queue. -/
theorem CatchingUp.parked (h : CatchingUp s i c) (hr : (server args start).Reachable s)
    (hparked : s.parked (.worker i) = true)
    (hfree : ∀ r, (s.use args (.worker i)).wants = some r → s.owner r = none) :
    AtEnd s i := by
  have hcursor := (reachable_good hr).cursors i
  simp only [System.use] at hfree
  cases hpc : (s.workers i).pc with
  | idle => exact absurd hpc h.created
  | get current g =>
    simp only [System.parked, hpc] at hparked
    obtain ⟨hwaits, hasleep⟩ := Bool.and_eq_true_iff.mp hparked
    simp only [hpc] at hfree
    have hwants : g.use.wants = some .msg := by cases g <;> first | rfl | cases hwaits
    have hnot := (reachable_monitor hr).not_awaited (hfree .msg hwants) hasleep
    have hle := hcursor.pos_le
    have hpos : (s.workers i).pos = seekPos current (s.workers i).prev := by
      simp only [Worker.pos, hpc]
    have htask : (s.workers i).task = .seek := by simp only [Worker.task, hpc]
    simp only [Cursor, hpc] at hcursor
    obtain ⟨hseek, -⟩ := hcursor
    have hcurrent : current = none := hseek.current_eq (by rintro rfl; cases hwaits)
    refine ⟨Nat.le_antisymm hle (Nat.le_of_not_lt fun hlt => hnot ?_), htask⟩
    rw [hpos, hcurrent] at hlt
    simp only [System.prevOf]
    cases hprev : (s.workers i).prev with
    | none | some p =>
      rw [hprev] at hlt
      exact hlt
  | body e lp =>
    simp only [System.parked, hpc] at hparked
    cases lp with
    | asleep =>
      simp only at hparked
      simp only [hpc] at hfree
      have hunlocked : (s.workers i).lock = none := hfree (.args i) rfl
      have hlive := ((reachable_good hr).owned.serving_link h.serving).1
      simp only [Worker.link, hpc] at hlive
      have hstage := (reachable_pool hr).worker i
      exfalso
      cases hst : s.stage i with
      | none =>
        rw [hst] at hlive
        have hbusy : (s.workers i).status = .busy := by
          by_contra hne
          rw [if_neg hne] at hlive
          cases hlive
        have hlocked := (reachable_rouses hr).locked (reachable_pool hr) hparked hbusy
        rw [hunlocked] at hlocked
        cases hlocked
      | some st =>
        obtain ⟨wake, a⟩ := st
        rw [hst] at hlive hstage
        have hlate : a.early = false := by cases a <;> first | rfl | cases hlive
        obtain ⟨hplace, hlocked, -⟩ := workerOk_late hstage hlate
        cases wake with
        | false =>
          rw [hpc] at hplace
          cases hplace
        | true =>
          rw [hunlocked] at hlocked
          cases hlocked rfl
    | _ => cases hparked

/-- **A step of the worker** keeps it on its way, and closer to the end of the queue. -/
theorem CatchingUp.own (h : CatchingUp s i c) (hn : args.numWorkers ≤ 32)
    (hr : (server args start).Reachable s) (hs : s.step args (.worker i .ready) = some s') :
    s'.fault = s.fault ∧ CatchingUp s' i c ∧ (AtEnd s' i ∨ s'.toGo i < s.toGo i) := by
  have hg := reachable_good hr
  obtain ⟨fd, v', hfd, hv, hs'⟩ := workerStep_eq (workerStep_of_step hs)
  cases h.serving.fd.symm.trans hfd
  have heffect := (WorkerView.step_move hv).effect (hg.cursors i)
  obtain ⟨hunharmed, hadvance⟩ := (h.goesOn hr).advance hv
  have hworker : s'.workers i = v'.worker := by simp [hs', System.setView]
  have hclient : s'.clients c = v'.client := by simp [hs', System.setView]
  have hqueue : s'.queue = v'.queue := by simp [hs', System.setView]
  have hlive : v'.client.closed = false := hunharmed.closed.trans h.serving.live
  have hserving : Serving s' i c := by
    refine (h.serving.next hg hs).resolve_left fun hclosed => ?_
    rw [hclient, hlive] at hclosed
    cases hclosed
  have hunset : ∀ e ∈ (s.workers i).pc.reading, ∀ entry ∈ s.queue.entries[e]?,
      (s.workers i).timestamp < entry.timestamp → entry.isSent i ≠ some true := by
    intro e hreading entry hentry _
    have hpos : (s.workers i).pos = e := by simp only [Worker.pos, reading_eq hreading]
    exact reachable_unmarked hn hr i (workerStep_lt hg.pool (workerStep_of_step hs)) e entry
      (Nat.le_of_eq hpos) hentry
  have hts := (hg.owned.serving_link h.serving).2
  have hentries := step_entries hg.pool hg.cursors hs
  have hsent := heffect.sentBefore hts ((reachable_streams hr).session i c h.serving) hlive hunset
    h.sent
  have hstocked := (heffect.stocked hts h.ahead.stocked hlive).move hentries
    (reachable_srcFresh hr).holds fun hl => by cases hl
  have hlen : s'.queue.entries.length = s.queue.entries.length := by
    rw [hqueue]
    exact heffect.length_entries
  refine ⟨?_, ⟨hserving, hworker ▸ hunharmed.created, hworker ▸ hunharmed.goes,
    hworker ▸ hunharmed.bytes, ⟨?_, ?_⟩, ?_⟩, ?_⟩
  · rw [hs']
    exact hunharmed.fault
  · rw [hworker, hclient]
    exact hstocked
  · refine h.ahead.step_cleanup hr hs (fun hl => by cases hl) ?_ ?_
    · rw [hworker]
      exact WorkerView.pos_le (hg.cursors i) hv
    · rw [hclient]
      exact heffect.frame.1
  · rw [hworker, hclient]
    refine hsent.keeps hentries.keeps ?_
    have hle := (step_keeps_cursors hg.pool hg.cursors hs i).done_le
    rw [hworker, hlen] at hle
    exact hle
  · have hcoming : s'.coming = s.coming := by
      have hsrc : s'.src = s.src := by simp [hs', System.setView]
      rw [System.coming, System.coming, hlen, hsrc]
    rw [System.toGo, System.toGo, hcoming, hworker]
    cases hadvance with
    | nearer hpos hgo =>
      refine .inr ?_
      rw [hpos]
      exact Nat.add_lt_add_left hgo _
    | past hpos hlt hgo =>
      have hle : (s.workers i).pos < s.coming := Nat.lt_of_lt_of_le hlt (Nat.le_add_right _ _)
      refine .inr ?_
      simp only [System.view] at hpos
      rw [hpos]
      omega
    | last hpos htask =>
      refine .inl ⟨?_, ?_⟩
      · rw [hworker, hlen]
        exact hpos
      · rw [hworker]
        exact htask

/-- A worker in a session that need not wait has a step. -/
theorem CatchingUp.can_step (h : CatchingUp s i c) (hr : (server args start).Reachable s)
    (hfault : s.fault = none) (hparked : s.parked (.worker i) = false)
    (hfree : ∀ r, (s.use args (.worker i)).wants = some r → s.owner r = none) :
    ∃ s', s.step args (.worker i .ready) = some s' := by
  have hwoken : ∀ e, (s.workers i).pc = .body e .asleep → (s.workers i).asleep = false := by
    intro e hpc
    simpa [System.parked, hpc] using hparked
  have hawake : ((s.workers i).pc.waits && s.queue.asleep (.worker i)) = false := by
    cases hpc : (s.workers i).pc with
    | idle | body e l => rfl
    | get current g => simpa [System.parked, hpc] using hparked
  obtain ⟨v', hv⟩ := WorkerView.can_step (v := s.view i c) .ready ((reachable_good hr).cursors i)
    h.created hawake hwoken (hfree .msg) (hfree .mask) (hfree (.args i))
  refine ⟨s.setView i c v', ?_⟩
  simp only [System.step, hfault, Option.isSome_none, Bool.false_eq_true, if_false,
    System.workerStep, h.serving.fd, hv, Option.map_some]

/-! ## There -/

/-- The images that a receiver is entitled to. -/
theorem flatMap_entitled (es : List MsgEntry) (client : Client) :
    ((List.range es.length).filter fun e => decide (Entitled es client e)).flatMap (imageAt es) =
      (es.filter fun entry => decide (client.acceptTs < entry.timestamp)).flatMap
        fun entry => entry.carried.image := by
  induction es using List.reverseRecOn with
  | nil => rfl
  | append_singleton es new ih =>
    have hfilter : ((List.range es.length).filter fun e =>
        decide (Entitled (es ++ [new]) client e)) =
        (List.range es.length).filter fun e => decide (Entitled es client e) := by
      refine List.filter_congr fun e he => decide_eq_decide.mpr ?_
      rw [Entitled, Entitled, List.getElem?_append_left (List.mem_range.mp he)]
    have himages : ((List.range es.length).filter fun e => decide (Entitled es client e)).flatMap
        (imageAt (es ++ [new])) =
        ((List.range es.length).filter fun e => decide (Entitled es client e)).flatMap
          (imageAt es) := by
      refine List.flatMap_congr fun e he => ?_
      have hent : Entitled es client e := of_decide_eq_true (List.mem_filter.mp he).2
      exact imageAt_keeps hent (keeps_append es new)
    have hlast : Entitled (es ++ [new]) client es.length ↔ client.acceptTs < new.timestamp := by
      simp [Entitled]
    rw [List.length_append, List.length_singleton, List.range_succ, List.filter_append, hfilter,
      List.flatMap_append, himages, ih, List.filter_append, List.flatMap_append]
    congr 1
    by_cases hlater : client.acceptTs < new.timestamp
    · simp [hlast, hlater, imageAt]
    · simp [hlast, hlater]

/-- **At the end of the queue** the receiver has been written all that it is entitled to. -/
theorem CatchingUp.out_eq (h : CatchingUp s i c) (hr : (server args start).Reachable s)
    (hend : AtEnd s i) :
    (s.clients c).unfinished = none ∧
      (s.clients c).out = (s.queue.entries.filter fun entry =>
        decide ((s.clients c).acceptTs < entry.timestamp)).flatMap fun entry =>
          entry.carried.image := by
  obtain ⟨hframed, hentitled⟩ := (reachable_streams hr).received c
  have hsession := (reachable_streams hr).session i c h.serving
  have hsent := h.sent
  rw [hend.task] at hsession hsent
  obtain ⟨hunfinished, hfail⟩ := hsession.progress
  rw [hunfinished] at hframed hentitled
  simp only [frames_none] at hentitled
  have hordered := hframed.ordered
  simp only [frames_none] at hordered
  have hdelivered : (s.clients c).delivered = (List.range s.queue.entries.length).filter
      fun e => decide (Entitled s.queue.entries (s.clients c) e) := by
    refine List.Pairwise.eq_of_mem_iff hordered
      (List.pairwise_lt_range.sublist List.filter_sublist) fun e => ?_
    rw [List.mem_filter, List.mem_range, decide_eq_true_iff]
    constructor
    · intro he
      have hent := hentitled e he
      obtain ⟨entry, hentry, -⟩ := id hent
      exact ⟨(List.getElem?_eq_some_iff.mp hentry).1, hent⟩
    · rintro ⟨hlt, hent⟩
      refine hsent (hsession.alive (by simp)) hfail e ?_ hent
      rw [hend.pos]
      exact hlt
  refine ⟨hunfinished, ?_⟩
  rw [hframed.out_eq_images, frames_none, hdelivered, flatMap_entitled]

/-- **A worker catches up**: by its own steps, with its connection alive and `send` writing
what it is given, and by steps of other threads that hold a mutex, a worker gets to where its
receiver has been written the messages that were enqueued after it was accepted, all of them
and nothing else. -/
theorem catches_up (hn : args.numWorkers ≤ 32) (hr : (server args start).Reachable s)
    (hfault : s.fault = none) (h : CatchingUp s i c) :
    ∃ s', (server args start).Steps
        (fun s l _ => l = .worker i .ready ∨
          ∃ u r, l.tid = some u ∧ u ≠ .worker i ∧ s.owner r = some u) s s' ∧
      Serving s' i c ∧ (s'.clients c).unfinished = none ∧
      (s'.clients c).out = (s'.queue.entries.filter fun entry =>
        decide ((s'.clients c).acceptTs < entry.timestamp)).flatMap fun entry =>
          entry.carried.image := by
  have hown : ∀ s, Sound args start s → CatchingUp s i c →
      (∀ r, (s.use args (.worker i)).wants = some r → s.owner r = none) →
      (Sound args start s ∧ CatchingUp s i c ∧ AtEnd s i) ∨
        ∃ l s', l = .worker i .ready ∧ (server args start).step s l s' ∧
          ((Sound args start s' ∧ CatchingUp s' i c ∧ AtEnd s' i) ∨
            Sound args start s' ∧ CatchingUp s' i c ∧ s'.toGo i < s.toGo i) := by
    rintro s ⟨hr, hfault⟩ h hfree
    cases hparked : s.parked (.worker i) with
    | true => exact .inl ⟨⟨hr, hfault⟩, h, h.parked hr hparked hfree⟩
    | false =>
      obtain ⟨s', hs⟩ := h.can_step hr hfault hparked hfree
      obtain ⟨hfault', h', hend⟩ := h.own hn hr hs
      have hsound' : Sound args start s' := ⟨.step hr trivial hs, hfault'.trans hfault⟩
      refine .inr ⟨_, s', rfl, hs, hend.imp (fun hthere => ⟨hsound', h', hthere⟩) fun hlt => ?_⟩
      exact ⟨hsound', h', hlt⟩
  obtain ⟨s', hsteps, ⟨hr', -⟩, h', hend⟩ := server_discipline.exists_done Lock.rank_lt
    (C := fun _ l _ => l = .worker i .ready) (System.toGo i)
    (fun s l s' h hstep hs => h.others hstep hs) hown (show Sound args start s from ⟨hr, hfault⟩) h
  exact ⟨s', hsteps.mono fun _ _ _ hc => hc.imp_right And.right, h'.serving, h'.out_eq hr' hend⟩

end

/-- A worker that has not been in the queue yet catches up with the one message there. -/
theorem catches_up_first :
    ∃ s s' : System, (s.workers 0).pc = .get none .test ∧ s.queue.entries.length = 1 ∧
      (server .default ⟨0, 0⟩).Steps
        (fun s l _ => l = .worker 0 .ready ∨
          ∃ u r, l.tid = some u ∧ u ≠ .worker 0 ∧ s.owner r = some u) s s' ∧
      Serving s' 0 0 ∧ (s'.clients 0).unfinished = none ∧
      (s'.clients 0).out = (s'.queue.entries.filter fun entry =>
        decide ((s'.clients 0).acceptTs < entry.timestamp)).flatMap fun entry =>
          entry.carried.image := by
  obtain ⟨s, hs, hp⟩ := LTS.exists_reachable (System.step .default) (.init ⟨0, 0⟩)
    (connectLabels ++ .tick ⟨1, 0⟩ :: enqueueLabels sampleMsg)
    (fun s => (s.workers 0).clientFd = some 0 ∧ (s.clients 0).assigned = true ∧
      (s.clients 0).closed = false ∧ (s.workers 0).pc = .get none .test ∧
      (s.workers 0).pos = 0 ∧ 0 ≤ (s.workers 0).bytesSent ∧
      (∀ entry ∈ s.queue.entries, ¬entry.Freed) ∧ s.cleanup.pc = .get none .test ∧
      s.queue.entries.length = 1 ∧ s.fault.isNone = true) (by decide)
  obtain ⟨hfd, hassigned, hlive, hpc, hpos, hbytes, hheld, hcleanup, hlen, hfault⟩ :=
    of_decide_eq_true hp
  have htask : (s.workers 0).task = .seek := by simp only [Worker.task, hpc]
  have hahead : Ahead s 0 0 := by
    refine ⟨⟨fun e _ entry hentry => hheld entry (List.mem_of_getElem? hentry), ?_⟩, fun e he => ?_⟩
    · rw [htask]
      intro hat
      cases hat
    · rw [hcleanup] at he
      cases he
  have hcatching : CatchingUp s 0 0 := by
    refine ⟨⟨hfd, hassigned, hlive⟩, by simp [hpc], by rw [htask]; rfl, hbytes, hahead, ?_⟩
    rw [htask, hpos]
    intro _ _ e he
    cases he
  obtain ⟨s', hsteps, hrun⟩ :=
    catches_up (by decide) hs (Option.isNone_iff_eq_none.mp hfault) hcatching
  exact ⟨s, s', hpc, hlen, hsteps, hrun⟩

end WireStorm
