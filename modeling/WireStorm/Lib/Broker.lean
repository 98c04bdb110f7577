import Mathlib.Logic.Function.Basic
import WireStorm.Lib.Framing
import WireStorm.Lib.Simulation

/-!
# Publish and subscribe over byte streams

A broker of posts (`broker`). Publishers append stamped posts to a log; a subscriber is
sent the images of posts that are later than its subscription. Which post may follow on the
ones that it was sent is a parameter: any later one (`Behind`), or the next one (`Next`). A
subscriber may be left in the middle of an image.

What a subscriber can rely on is a fact about what can be seen of a run: the bytes that it
was sent are a prefix of the images of some of the posts that were published, in the order
of their publication (`bytesTo_isPrefix`), and of consecutive ones if a post is followed by
the next (`bytesTo_isInfix`).
-/

universe u v w x

namespace PubSub

open Framing (IsStream frames)

variable {θ : Type u} {μ : Type v} {κ : Type w} {β : Type x}

/-! ## The broker -/

/-- A subscriber: since when it is one, the posts that it was sent in full, the post being
sent with the number of bytes written of it, all that was written to it, and whether it is
still there. -/
structure Sub (θ : Type u) (β : Type x) where
  since : θ
  sent : List Nat
  part : Option (Nat × Nat)
  out : List β
  live : Bool

/-- The posts with their stamps, and the subscribers. -/
@[ext]
structure Broker (θ : Type u) (μ : Type v) (κ : Type w) (β : Type x) where
  log : List (θ × μ)
  subs : κ → Option (Sub θ β)

inductive Act (θ : Type u) (μ : Type v) (κ : Type w) (β : Type x)
  | publish (stamp : θ) (post : μ)
  | subscribe (c : κ) (since : θ)
  | start (c : κ) (e : Nat)
  | write (c : κ) (bs : List β)
  | finish (c : κ)
  | leave (c : κ)

/-- What can be seen of a broker from outside. -/
inductive Event (θ : Type u) (μ : Type v) (κ : Type w) (β : Type x)
  | published (stamp : θ) (post : μ)
  | subscribed (c : κ) (since : θ)
  | wrote (c : κ) (bs : List β)
  | left (c : κ)

/-- A new subscriber. -/
def Sub.new (since : θ) : Sub θ β := ⟨since, [], none, [], true⟩

namespace Broker

/-- No post and no subscriber. -/
def empty : Broker θ μ κ β := ⟨[], fun _ => none⟩

/-- A post is appended to the log. -/
def append (b : Broker θ μ κ β) (stamp : θ) (post : μ) : Broker θ μ κ β :=
  { b with log := b.log ++ [(stamp, post)] }

def setSub [DecidableEq κ] (b : Broker θ μ κ β) (c : κ) (sub : Sub θ β) : Broker θ μ κ β :=
  { b with subs := Function.update b.subs c (some sub) }

end Broker

/-- A step of the broker. A post is started only for a subscriber that it is later than, and
where it follows on what the subscriber was sent. -/
inductive Step [DecidableEq κ] [LT θ] (follows : List Nat → Nat → Prop) (image : μ → List β)
    (b : Broker θ μ κ β) : Act θ μ κ β → Broker θ μ κ β → Prop
  | publish {stamp : θ} {post : μ} :
      Step follows image b (.publish stamp post) (b.append stamp post)
  | subscribe {c : κ} {since : θ} (hnew : b.subs c = none) :
      Step follows image b (.subscribe c since) (b.setSub c (.new since))
  | start {c : κ} {e : Nat} {sub : Sub θ β} {p : θ × μ} (hsub : b.subs c = some sub)
      (hlive : sub.live = true) (hpart : sub.part = none) (hpost : b.log[e]? = some p)
      (hlater : sub.since < p.1) (hfollows : follows sub.sent e) :
      Step follows image b (.start c e) (b.setSub c { sub with part := some (e, 0) })
  | write {c : κ} {bs : List β} {e n : Nat} {sub : Sub θ β} {p : θ × μ}
      (hsub : b.subs c = some sub) (hlive : sub.live = true) (hpart : sub.part = some (e, n))
      (hpost : b.log[e]? = some p) (hbs : bs <+: (image p.2).drop n) :
      Step follows image b (.write c bs)
        (b.setSub c { sub with out := sub.out ++ bs, part := some (e, n + bs.length) })
  | finish {c : κ} {e : Nat} {sub : Sub θ β} {p : θ × μ} (hsub : b.subs c = some sub)
      (hlive : sub.live = true) (hpost : b.log[e]? = some p)
      (hpart : sub.part = some (e, (image p.2).length)) :
      Step follows image b (.finish c)
        (b.setSub c { sub with part := none, sent := sub.sent ++ [e] })
  | leave {c : κ} {sub : Sub θ β} (hsub : b.subs c = some sub) (hlive : sub.live = true) :
      Step follows image b (.leave c) (b.setSub c { sub with live := false })

/-- Starting and finishing a post cannot be seen. -/
def observe (_ : Broker θ μ κ β) : Act θ μ κ β → Option (Event θ μ κ β)
  | .publish stamp post => some (.published stamp post)
  | .subscribe c since => some (.subscribed c since)
  | .write c bs => some (.wrote c bs)
  | .leave c => some (.left c)
  | .start _ _ | .finish _ => none

/-- The runs of the broker. -/
def broker [DecidableEq κ] [LT θ] (follows : List Nat → Nat → Prop) (image : μ → List β) :
    LTS (Broker θ μ κ β) (Act θ μ κ β) where
  init b := b = .empty
  step := Step follows image

/-- A post may follow on any earlier ones. -/
def Behind (sent : List Nat) (e : Nat) : Prop := ∀ j ∈ sent, j < e

/-- A post may follow on the one right before it. -/
def Next (sent : List Nat) (e : Nat) : Prop := Behind sent e ∧ ∀ j ∈ sent.getLast?, j + 1 = e

/-! ## What is seen -/

/-- The post that was published. -/
def Event.post : Event θ μ κ β → Option (θ × μ)
  | .published stamp post => some (stamp, post)
  | _ => none

/-- The time from which `c` was subscribed. -/
def Event.sinceOf [DecidableEq κ] (c : κ) : Event θ μ κ β → Option θ
  | .subscribed d since => if d = c then some since else none
  | _ => none

/-- What was written to `c`. -/
def Event.bytes [DecidableEq κ] (c : κ) : Event θ μ κ β → List β
  | .wrote d bs => if d = c then bs else []
  | _ => []

/-- The posts that were published, in order. -/
def published (es : List (Event θ μ κ β)) : List (θ × μ) := es.filterMap Event.post

/-- The bytes that were written to `c`. -/
def bytesTo [DecidableEq κ] (c : κ) (es : List (Event θ μ κ β)) : List β :=
  es.flatMap (Event.bytes c)

/-- The times from which `c` was subscribed. -/
def subscriptions [DecidableEq κ] (c : κ) (es : List (Event θ μ κ β)) : List θ :=
  es.filterMap (Event.sinceOf c)

/-! ## The log and the events -/

section
variable [DecidableEq κ] [LT θ] {follows : List Nat → Nat → Prop} {image : μ → List β}
  {b b' : Broker θ μ κ β} {a : Act θ μ κ β} {c d : κ} {sub : Sub θ β} {es : List (Event θ μ κ β)}

/-- The bytes written to `c`. -/
def Broker.outOf (b : Broker θ μ κ β) (c : κ) : List β := (b.subs c).elim [] Sub.out

/-- Since when `c` is a subscriber. -/
def Broker.sinceOf (b : Broker θ μ κ β) (c : κ) : List θ := (b.subs c).toList.map Sub.since

omit [LT θ] in
@[simp] theorem subs_setSub :
    (b.setSub d sub).subs c = if c = d then some sub else b.subs c := by
  simp only [Broker.setSub, Function.update_apply]

omit [LT θ] in
@[simp] theorem setSub_setSub (sub' : Sub θ β) :
    (b.setSub d sub).setSub d sub' = b.setSub d sub' := by
  simp only [Broker.setSub, Function.update_idem]

omit [LT θ] in
@[simp] theorem log_setSub : (b.setSub d sub).log = b.log := rfl

omit [DecidableEq κ] [LT θ] in
@[simp] theorem subs_append {stamp : θ} {post : μ} : (b.append stamp post).subs = b.subs := rfl

omit [DecidableEq κ] [LT θ] in
@[simp] theorem log_append {stamp : θ} {post : μ} :
    (b.append stamp post).log = b.log ++ [(stamp, post)] := rfl

/-- **The log** holds the posts that were seen to be published. -/
theorem published_eq (h : (broker follows image).Observed observe es b) :
    published es = b.log := by
  refine h.filterMap_eq (L := Broker.log) ?_ fun b a b' _ hs => ?_
  · rintro b rfl
    rfl
  · cases hs <;> simp [observe, Event.post]

theorem bytesTo_eq (h : (broker follows image).Observed observe es b) :
    bytesTo c es = b.outOf c := by
  refine h.flatMap_eq (L := fun b => b.outOf c) ?_ fun b a b' hs => ?_
  · rintro b rfl
    rfl
  -- the step is one for `c` or for another subscriber
  cases hs with
  | publish => simp [observe, Event.bytes, Broker.outOf]
  | @subscribe d _ hnew =>
    by_cases hc : c = d
    · simp [observe, Event.bytes, Broker.outOf, Sub.new, hc, hnew]
    · simp [observe, Event.bytes, Broker.outOf, hc]
  | @write d _ _ _ _ _ hsub =>
    by_cases hc : c = d
    · simp [observe, Event.bytes, Broker.outOf, hc, hsub]
    · simp [observe, Event.bytes, Broker.outOf, hc, Ne.symm hc]
  | @start d _ _ _ hsub | @finish d _ _ _ hsub | @leave d _ hsub =>
    by_cases hc : c = d
    · simp [observe, Event.bytes, Broker.outOf, hc, hsub]
    · simp [observe, Event.bytes, Broker.outOf, hc]

theorem subscriptions_eq (h : (broker follows image).Observed observe es b) :
    subscriptions c es = b.sinceOf c := by
  refine h.filterMap_eq (L := fun b => b.sinceOf c) ?_ fun b a b' _ hs => ?_
  · rintro b rfl
    rfl
  cases hs with
  | publish => simp [observe, Event.sinceOf, Broker.sinceOf]
  | @subscribe d _ hnew =>
    by_cases hc : c = d
    · simp [observe, Event.sinceOf, Broker.sinceOf, Sub.new, hc, hnew]
    · simp [observe, Event.sinceOf, Broker.sinceOf, hc, Ne.symm hc]
  | @write d _ _ _ _ _ hsub | @start d _ _ _ hsub | @finish d _ _ _ hsub | @leave d _ hsub =>
    by_cases hc : c = d
    · simp [observe, Event.sinceOf, Broker.sinceOf, hc, hsub]
    · simp [observe, Event.sinceOf, Broker.sinceOf, hc]

end

/-! ## What a subscriber can rely on -/

/-- The image of the post at position `e`. -/
def imageAt (image : μ → List β) (log : List (θ × μ)) (e : Nat) : List β :=
  (log[e]?).elim [] fun p => image p.2

/-- A subscriber was sent a framed stream of posts that it is entitled to. -/
structure Sub.Served [LT θ] (image : μ → List β) (log : List (θ × μ)) (sub : Sub θ β) : Prop where
  framed : IsStream (imageAt image log) sub.sent sub.part sub.out
  entitled : ∀ e ∈ frames sub.sent sub.part, ∃ p, log[e]? = some p ∧ sub.since < p.1

section
variable [LT θ] {image : μ → List β} {log : List (θ × μ)} {sub : Sub θ β} {e n : Nat} {p : θ × μ}

omit [LT θ] in
theorem imageAt_eq (h : log[e]? = some p) : imageAt image log e = image p.2 := by
  rw [imageAt, h, Option.elim_some]

theorem Sub.served_new {since : θ} : (Sub.new since : Sub θ β).Served image log :=
  ⟨.nil, by simp [Sub.new, frames]⟩

theorem Sub.Served.append (h : sub.Served image log) : sub.Served image (log ++ [p]) := by
  have hold : ∀ {e : Nat} {q : θ × μ}, log[e]? = some q → (log ++ [p])[e]? = some q := by
    intro e q hq
    rw [List.getElem?_append_left (List.getElem?_eq_some_iff.mp hq).1, hq]
  refine ⟨h.framed.congr fun e he => ?_, fun e he => ?_⟩
  · obtain ⟨q, hq, -⟩ := h.entitled e he
    rw [imageAt_eq hq, imageAt_eq (hold hq)]
  · obtain ⟨q, hq, hlater⟩ := h.entitled e he
    exact ⟨q, hold hq, hlater⟩

theorem Sub.Served.start (h : sub.Served image log) (hpart : sub.part = none)
    (hpost : log[e]? = some p) (hlater : sub.since < p.1) (hbehind : Behind sub.sent e) :
    ({ sub with part := some (e, 0) } : Sub θ β).Served image log := by
  obtain ⟨hframed, hentitled⟩ := h
  rw [hpart] at hframed hentitled
  refine ⟨hframed.start hbehind, fun j hj => ?_⟩
  rcases List.mem_append.mp hj with hj | hj
  · exact hentitled j (by simpa using hj)
  · rw [List.mem_singleton.mp hj]
    exact ⟨p, hpost, hlater⟩

theorem Sub.Served.write (h : sub.Served image log) (hpart : sub.part = some (e, n))
    (hpost : log[e]? = some p) {bs : List β} (hbs : bs <+: (image p.2).drop n) :
    ({ sub with out := sub.out ++ bs, part := some (e, n + bs.length) } : Sub θ β).Served image
      log := by
  obtain ⟨hframed, hentitled⟩ := h
  rw [hpart] at hframed hentitled
  exact ⟨hframed.write (by rwa [imageAt_eq hpost]), hentitled⟩

theorem Sub.Served.finish (h : sub.Served image log) (hpost : log[e]? = some p)
    (hpart : sub.part = some (e, (image p.2).length)) :
    ({ sub with part := none, sent := sub.sent ++ [e] } : Sub θ β).Served image log := by
  obtain ⟨hframed, hentitled⟩ := h
  rw [hpart] at hframed hentitled
  refine ⟨hframed.finish (by rw [imageAt_eq hpost]), fun j hj => hentitled j ?_⟩
  simpa using hj

variable {κ : Type w} [DecidableEq κ] {follows : List Nat → Nat → Prop} {b b' : Broker θ μ κ β}
  {a : Act θ μ κ β} {c : κ}

omit [LT θ] in
/-- A step that changes at most one subscriber keeps what holds of every subscriber. -/
theorem forall_setSub {P : Sub θ β → Prop} {new : Sub θ β}
    (h : ∀ c sub, b.subs c = some sub → P sub) (hnew : P new) :
    ∀ d sub, (b.setSub c new).subs d = some sub → P sub := by
  intro d sub hsub
  rw [subs_setSub] at hsub
  split at hsub
  · cases hsub
    exact hnew
  · exact h d sub hsub

/-- A step keeps every subscriber served. -/
theorem Step.served (hfollows : ∀ sent e, follows sent e → Behind sent e)
    (hs : Step follows image b a b') (h : ∀ c sub, b.subs c = some sub → sub.Served image b.log) :
    ∀ c sub, b'.subs c = some sub → sub.Served image b'.log := by
  cases hs with
  | publish => exact fun c sub hsub => (h c sub hsub).append
  | subscribe => exact forall_setSub h Sub.served_new
  | start hsub _ hpart hpost hlater hstart =>
    exact forall_setSub h ((h _ _ hsub).start hpart hpost hlater (hfollows _ _ hstart))
  | write hsub _ hpart hpost hbs => exact forall_setSub h ((h _ _ hsub).write hpart hpost hbs)
  | finish hsub _ hpost hpart => exact forall_setSub h ((h _ _ hsub).finish hpost hpart)
  | leave hsub => exact forall_setSub h ⟨(h _ _ hsub).framed, (h _ _ hsub).entitled⟩

theorem reachable_served (hfollows : ∀ sent e, follows sent e → Behind sent e)
    (h : (broker follows image).Reachable b) :
    ∀ c sub, b.subs c = some sub → sub.Served image b.log := by
  refine h.invariant (I := fun b => ∀ c sub, b.subs c = some sub → sub.Served image b.log) ?_
    fun _ _ _ _ hi hs => Step.served hfollows hs hi
  rintro b rfl c sub hsub
  cases hsub

/-- The elements at increasing positions from `k` on, in their order. -/
theorem filterMap_getElem?_sublist {α : Type*} (l : List α) {is : List Nat} (k : Nat)
    (h : is.Pairwise (· < ·)) (hk : ∀ i ∈ is, k ≤ i) :
    (is.filterMap fun i => l[i]?).Sublist (l.drop k) := by
  induction is generalizing k with
  | nil => exact List.nil_sublist _
  | cons i is ih =>
    obtain ⟨hi, his⟩ := List.pairwise_cons.mp h
    have hki : k ≤ i := hk i List.mem_cons_self
    have hlater := ih (i + 1) his hi
    refine List.Sublist.trans ?_ (List.drop_sublist_drop_left l hki)
    cases hget : l[i]? with
    | none =>
      rw [List.filterMap_cons_none hget]
      exact hlater.trans (List.drop_sublist_drop_left l (Nat.le_succ i))
    | some x =>
      obtain ⟨hlt, rfl⟩ := List.getElem?_eq_some_iff.mp hget
      rw [List.filterMap_cons_some hget, List.drop_eq_getElem_cons hlt]
      exact hlater.cons_cons _

/-- The posts that a subscriber was sent, the one being sent included. -/
def Sub.posts (log : List (θ × μ)) (sub : Sub θ β) : List (θ × μ) :=
  (frames sub.sent sub.part).filterMap fun e => log[e]?

theorem Sub.Served.posts_later (h : sub.Served image log) :
    ∀ p ∈ sub.posts log, sub.since < p.1 := by
  intro p hp
  obtain ⟨e, he, hpost⟩ := List.mem_filterMap.mp hp
  obtain ⟨q, hq, hlater⟩ := h.entitled e he
  rw [hq] at hpost
  cases hpost
  exact hlater

theorem Sub.Served.out_isPrefix (h : sub.Served image log) :
    sub.out <+: (sub.posts log).flatMap fun p => image p.2 := by
  have himages : ((sub.posts log).flatMap fun p => image p.2) =
      (frames sub.sent sub.part).flatMap (imageAt image log) := by
    rw [Sub.posts, List.filterMap_eq_flatMap_toList, List.flatMap_assoc]
    refine List.flatMap_congr fun e he => ?_
    obtain ⟨q, hq, -⟩ := h.entitled e he
    rw [hq, imageAt_eq hq, Option.toList_some, List.flatMap_singleton]
  rw [himages]
  exact h.framed.isPrefix_images

theorem Sub.Served.posts_sublist (h : sub.Served image log) : (sub.posts log).Sublist log := by
  simpa [Sub.posts] using filterMap_getElem?_sublist log 0 h.framed.ordered fun i _ => Nat.zero_le i

/-- **What a subscriber is sent** is a prefix of the images of some of the posts that were
published later than its subscription, in the order of their publication. -/
theorem bytesTo_isPrefix (hfollows : ∀ sent e, follows sent e → Behind sent e)
    {es : List (Event θ μ κ β)} (h : (broker follows image).Observed observe es b) (c : κ) :
    ∃ ps : List (θ × μ), ps.Sublist (published es) ∧
      (∀ p ∈ ps, ∃ since ∈ subscriptions c es, since < p.1) ∧
      bytesTo c es <+: ps.flatMap fun p => image p.2 := by
  rw [published_eq h, bytesTo_eq h, subscriptions_eq h, Broker.outOf, Broker.sinceOf]
  cases hsub : b.subs c with
  | none => exact ⟨[], List.nil_sublist _, by simp, List.nil_prefix⟩
  | some sub =>
    have hserved := reachable_served hfollows h.reachable c sub hsub
    exact ⟨sub.posts b.log, hserved.posts_sublist,
      fun p hp => ⟨sub.since, by simp, hserved.posts_later p hp⟩, hserved.out_isPrefix⟩

end

/-! ## Subscribers that miss nothing in between -/

/-- Positions one after another. -/
def Consecutive (is : List Nat) : Prop := ∃ k, is = List.range' k is.length

theorem consecutive_nil : Consecutive [] := ⟨0, rfl⟩

theorem Consecutive.concat {is : List Nat} {e : Nat} (h : Consecutive is)
    (hnext : ∀ j ∈ is.getLast?, j + 1 = e) : Consecutive (is ++ [e]) := by
  obtain ⟨k, hk⟩ := h
  cases hlen : is.length with
  | zero =>
    rw [List.length_eq_zero_iff.mp hlen]
    exact ⟨e, rfl⟩
  | succ n =>
    rw [hlen] at hk
    have hlast : (k + n) + 1 = e := by
      refine hnext (k + n) ?_
      rw [hk, List.range'_1_concat, List.getLast?_concat]
      rfl
    refine ⟨k, ?_⟩
    rw [List.length_append, hlen, List.length_singleton, List.range'_1_concat, ← hk, ← hlast]
    rfl

/-- The elements at consecutive positions are a segment of the list. -/
theorem Consecutive.filterMap_isInfix {α : Type*} {is : List Nat} (h : Consecutive is) (l : List α) :
    (is.filterMap fun i => l[i]?) <:+: l := by
  obtain ⟨k, hk⟩ := h
  have hsegment : (is.filterMap fun i => l[i]?) = (l.drop k).take is.length := by
    rw [hk]
    generalize is.length = n
    simp only [List.length_range']
    induction n with
    | zero => rfl
    | succ n ih =>
      rw [List.range'_1_concat, List.filterMap_append, ih, List.take_add_one, List.getElem?_drop,
        List.filterMap_eq_flatMap_toList, List.flatMap_singleton]
  rw [hsegment]
  exact (List.take_prefix _ _).isInfix.trans (List.drop_suffix k l).isInfix

section
variable [LT θ] {image : μ → List β} [DecidableEq κ] {b b' : Broker θ μ κ β} {a : Act θ μ κ β}

/-- A step of the broker that goes on with the next post leaves no gap. -/
theorem Step.consecutive (hs : Step Next image b a b')
    (h : ∀ c sub, b.subs c = some sub → Consecutive (frames sub.sent sub.part)) :
    ∀ c sub, b'.subs c = some sub → Consecutive (frames sub.sent sub.part) := by
  cases hs with
  | publish => exact h
  | subscribe => exact forall_setSub h consecutive_nil
  | start hsub _ hpart _ _ hnext =>
    have hsent := h _ _ hsub
    rw [hpart, Framing.frames_none] at hsent
    exact forall_setSub h (hsent.concat hnext.2)
  | write hsub _ hpart =>
    have hsent := h _ _ hsub
    rw [hpart] at hsent
    exact forall_setSub h hsent
  | finish hsub _ _ hpart =>
    have hsent := h _ _ hsub
    rw [hpart] at hsent
    refine forall_setSub h ?_
    rwa [Framing.frames_none]
  | leave hsub =>
    have hsent := h _ _ hsub
    exact forall_setSub h hsent

theorem reachable_consecutive (h : (broker Next image).Reachable b) :
    ∀ c sub, b.subs c = some sub → Consecutive (frames sub.sent sub.part) := by
  refine h.invariant
    (I := fun b => ∀ c sub, b.subs c = some sub → Consecutive (frames sub.sent sub.part)) ?_
    fun _ _ _ _ hi hs => Step.consecutive hs hi
  rintro b rfl c sub hsub
  cases hsub

/-- **What a subscriber is sent**, if each post is followed by the next, is a prefix of the
images of consecutive posts. -/
theorem bytesTo_isInfix {es : List (Event θ μ κ β)} (h : (broker Next image).Observed observe es b)
    (c : κ) :
    ∃ ps : List (θ × μ), ps <:+: published es ∧
      (∀ p ∈ ps, ∃ since ∈ subscriptions c es, since < p.1) ∧
      bytesTo c es <+: ps.flatMap fun p => image p.2 := by
  rw [published_eq h, bytesTo_eq h, subscriptions_eq h, Broker.outOf, Broker.sinceOf]
  cases hsub : b.subs c with
  | none => exact ⟨[], List.nil_infix, by simp, List.nil_prefix⟩
  | some sub =>
    have hserved := reachable_served (fun _ _ h => h.1) h.reachable c sub hsub
    exact ⟨sub.posts b.log, (reachable_consecutive h.reachable c sub hsub).filterMap_isInfix _,
      fun p hp => ⟨sub.since, by simp, hserved.posts_later p hp⟩, hserved.out_isPrefix⟩

end

end PubSub
