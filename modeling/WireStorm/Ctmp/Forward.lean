import WireStorm.Ctmp.Accept
import WireStorm.Ctmp.Send

/-!
# Forwarding

`send_ctmp_msg` as one call, over any schedule of its `send` calls (`sendCtmpMsg`).
It returns 0 when it has written the image of the message and a negative value when
it has written less (`sendCtmpMsg_spec`). The image of a message that a parser
returned is what the parser took from the stream, so a message is forwarded byte for
byte (`forwarded_verbatim`).
-/

namespace WireStorm

/-! ## `send_ctmp_msg` over a schedule -/

/-- What a call of `send_ctmp_msg` did: the bytes written, and the value returned
(`none` while it still sends). -/
structure Sent where
  written : List UInt8
  res : Option Int
  deriving DecidableEq, Repr

/-- `send_ctmp_msg` from `p` on. -/
def sendCtmpMsgFrom (m : CtmpMsg) : SendPc → List SendEvent → Sent
  | _, [] => ⟨[], none⟩
  | p, ev :: evs =>
    match sendCtmpMsgRound m p ev with
    | (bs, .ret res) => ⟨bs, some res⟩
    | (bs, .more p') =>
      let s := sendCtmpMsgFrom m p' evs
      ⟨bs ++ s.written, s.res⟩

/-- `send_ctmp_msg`. -/
def sendCtmpMsg (m : CtmpMsg) (sched : List SendEvent) : Sent :=
  sendCtmpMsgFrom m (.header 0) sched

/-- The number of `send` calls that are not interrupted. -/
def uninterrupted (sched : List SendEvent) : Nat := sched.countP (· ≠ .eintr)

/-! ## Rounds -/

theorem sendMsgResult_le (len total : Nat) : sendMsgResult len total ≤ 0 := by
  unfold sendMsgResult
  split <;> decide

theorem sendMsgNext_le {len total : Nat} {res : Int} (h : sendMsgNext len total = .ret res) :
    res ≤ 0 := by
  unfold sendMsgNext at h
  split at h
  · cases h
  · cases h
    exact sendMsgResult_le len total

theorem sendMsgNext_neg {len total : Nat} {res : Int} (hle : total ≤ len)
    (h : sendMsgNext len total = .ret res) : ¬res < 0 := by
  unfold sendMsgNext at h
  split at h
  · cases h
  · cases h
    rw [sendMsgResult, if_pos (by omega)]
    decide

section
variable {buf bs : List UInt8} {total : Nat} {ev : SendEvent} {res : Int}

/-- `send_msg` returns 0 or a negative value, and a negative one only before the end. -/
theorem sendMsgRound_ret (hlt : total < buf.length)
    (h : sendMsgRound buf total ev = (bs, .ret res)) :
    res ≤ 0 ∧ (res < 0 → total + bs.length < buf.length) := by
  cases ev with
  | eintr =>
    simp only [sendMsgRound, Prod.mk.injEq] at h
    exact ⟨sendMsgNext_le h.2, fun hneg => absurd hneg (sendMsgNext_neg hlt.le h.2)⟩
  | error e =>
    simp only [sendMsgRound, Prod.mk.injEq, SendMsg.ret.injEq] at h
    obtain ⟨rfl, rfl⟩ := h
    exact ⟨by omega, fun _ => by simpa using hlt⟩
  | bytes n =>
    simp only [sendMsgRound] at h
    split at h
    · cases h
      exact ⟨sendMsgResult_le _ _, fun _ => by simpa using hlt⟩
    · simp only [Prod.mk.injEq] at h
      obtain ⟨rfl, h⟩ := h
      refine ⟨sendMsgNext_le h, fun hneg => absurd hneg (sendMsgNext_neg ?_ h)⟩
      rw [List.length_take, List.length_drop]
      omega

/-- A `send` that is not interrupted writes something or ends `send_msg`. -/
theorem sendMsgRound_progress {t : Nat} (hev : ev ≠ .eintr)
    (h : sendMsgRound buf total ev = (bs, .more t)) : bs ≠ [] := by
  cases ev with
  | eintr => exact absurd rfl hev
  | error e => cases h
  | bytes n =>
    simp only [sendMsgRound] at h
    split at h
    · cases h
    · rename_i hne
      simp only [Prod.mk.injEq] at h
      rw [← h.1]
      exact hne

end

section
variable {m : CtmpMsg} {p p' : SendPc} {ev : SendEvent} {bs : List UInt8} {res : Int}

/-- `send_ctmp_msg` is between two calls of `send`. -/
def SendPc.Sending (m : CtmpMsg) (p : SendPc) : Prop :=
  p.Within m ∧ p.written < m.image.length

theorem sendCtmpMsgRound_ret (hp : p.Sending m)
    (h : sendCtmpMsgRound m p ev = (bs, .ret res)) :
    res ≤ 0 ∧ (res < 0 → p.written + bs.length < m.image.length) := by
  obtain ⟨hwithin, hlt⟩ := hp
  have himage := m.length_image
  cases p with
  | header total =>
    simp only [sendCtmpMsgRound] at h
    split at h
    · cases h
    · rename_i bs res hr
      have htotal : total < m.header.bytes.length := by
        rw [m.header.length_eq]
        exact hwithin
      obtain ⟨hle, hneg⟩ := sendMsgRound_ret htotal hr
      rw [m.header.length_eq] at hneg
      split at h
      · rename_i hres
        cases h
        refine ⟨hle, fun _ => ?_⟩
        have := hneg hres
        rw [SendPc.written]
        omega
      · cases h
  | data total =>
    simp only [sendCtmpMsgRound] at h
    split at h
    · cases h
    · rename_i bs res hr
      cases h
      rw [SendPc.written] at hlt ⊢
      have htotal : total < m.data.length := by
        rw [m.data_length]
        omega
      obtain ⟨hle, hneg⟩ := sendMsgRound_ret htotal hr
      refine ⟨hle, fun hres => ?_⟩
      have := hneg hres
      rw [m.data_length] at this
      omega

/-- While `send_ctmp_msg` goes on, something is left to send, and a `send` that was not
interrupted has written something. -/
theorem sendCtmpMsgRound_more (hp : p.Sending m) (hlen : 0 < m.len.toNat)
    (h : sendCtmpMsgRound m p ev = (bs, .more p')) :
    p'.Sending m ∧ (ev ≠ .eintr → bs ≠ []) := by
  have hwithin := ((sendCtmpMsgRound_spec hp.1 h).2.1 p' rfl).1
  have himage := m.length_image
  cases p with
  | header total =>
    have hheader := m.header.length_eq
    simp only [sendCtmpMsgRound] at h
    split at h
    · rename_i t hr
      cases h
      have ht : t < headerLength := hwithin
      refine ⟨⟨hwithin, ?_⟩, fun hev => sendMsgRound_progress hev hr⟩
      rw [SendPc.written]
      omega
    · rename_i bs res hr
      split at h
      · cases h
      · rename_i hres
        cases h
        refine ⟨⟨hwithin, ?_⟩, fun _ hnil => ?_⟩
        · rw [SendPc.written]
          omega
        · -- the last byte of the header was just written
          have hall := (sendMsgRound_spec hr).2.2 res rfl (by omega)
          have htotal : total < headerLength := hp.1
          rw [hnil, List.length_nil] at hall
          omega
  | data total =>
    simp only [sendCtmpMsgRound] at h
    split at h
    · rename_i t hr
      cases h
      have ht := ((sendMsgRound_spec hr).2.1 t rfl).2
      rw [m.data_length] at ht
      refine ⟨⟨hwithin, ?_⟩, fun hev => sendMsgRound_progress hev hr⟩
      rw [SendPc.written]
      omega
    · cases h

end

/-! ## Two calls of `send_msg` -/

/-- `send_msg` from `total` on: the bytes written, how it stands, and the rest of the
schedule. -/
def sendMsg (buf : List UInt8) : Nat → List SendEvent → List UInt8 × SendMsg × List SendEvent
  | total, [] => ([], .more total, [])
  | total, ev :: evs =>
    match sendMsgRound buf total ev with
    | (bs, .ret res) => (bs, .ret res, evs)
    | (bs, .more t) =>
      let s := sendMsg buf t evs
      (bs ++ s.1, s.2)

/-- A call of `send_msg` that nothing follows. -/
def Sent.ofSendMsg (s : List UInt8 × SendMsg × List SendEvent) : Sent where
  written := s.1
  res :=
    match s.2.1 with
    | .more _ => none
    | .ret res => some res

section
variable {m : CtmpMsg}

theorem sendCtmpMsgFrom_data (total : Nat) (sched : List SendEvent) :
    sendCtmpMsgFrom m (.data total) sched = .ofSendMsg (sendMsg m.data total sched) := by
  induction sched generalizing total with
  | nil => rfl
  | cons ev evs ih =>
    simp only [sendCtmpMsgFrom, sendMsg, sendCtmpMsgRound]
    rcases sendMsgRound m.data total ev with ⟨bs, t | res⟩
    · simp only [ih]
      rfl
    · rfl

/-- **`send_ctmp_msg`** calls `send_msg` for the header and, if that did not fail, for the
data. -/
theorem sendCtmpMsgFrom_header (total : Nat) (sched : List SendEvent) :
    sendCtmpMsgFrom m (.header total) sched =
      match sendMsg m.header.bytes total sched with
      | (bs, .more _, _) => ⟨bs, none⟩
      | (bs, .ret res, evs) =>
        if res < 0 then
          ⟨bs, some res⟩
        else
          let d := Sent.ofSendMsg (sendMsg m.data 0 evs)
          ⟨bs ++ d.written, d.res⟩ := by
  induction sched generalizing total with
  | nil => rfl
  | cons ev evs ih =>
    simp only [sendCtmpMsgFrom, sendMsg, sendCtmpMsgRound]
    rcases sendMsgRound m.header.bytes total ev with ⟨bs, t | res⟩
    · simp only [ih]
      rcases sendMsg m.header.bytes t evs with ⟨bs', t' | res, evs'⟩
      · rfl
      · by_cases hres : res < 0
        · simp only [if_pos hres]
        · simp only [if_neg hres, List.append_assoc]
    · by_cases hres : res < 0
      · simp only [if_pos hres]
      · simp only [if_neg hres, sendCtmpMsgFrom_data]

end

/-! ## The whole call -/

/-- What a call that has `bytes` to send may do: it returns 0 when all are written, and a
negative value when some are not. -/
structure SentOf (bytes : List UInt8) (s : Sent) : Prop where
  starts : s.written <+: bytes
  done : s.res = some 0 → s.written = bytes
  failed : ∀ res < 0, s.res = some res → s.written ≠ bytes
  sign : ∀ res, s.res = some res → res ≤ 0

/-- What was written before a round goes before what is written from it on. -/
theorem SentOf.append {bytes bs : List UInt8} {s : Sent} (h : SentOf bytes s) :
    SentOf (bs ++ bytes) ⟨bs ++ s.written, s.res⟩ where
  starts := (List.prefix_append_right_inj bs).mpr h.starts
  done hres := congrArg (bs ++ ·) (h.done hres)
  failed res hneg hres heq := h.failed res hneg hres (List.append_cancel_left heq)
  sign := h.sign

variable {m : CtmpMsg}

/-- **`send_ctmp_msg`** from `p` on has the rest of the image to send. -/
theorem sendCtmpMsgFrom_spec (hlen : 0 < m.len.toNat) (sched : List SendEvent) {p : SendPc}
    (hp : p.Sending m) : SentOf (m.image.drop p.written) (sendCtmpMsgFrom m p sched) := by
  induction sched generalizing p with
  | nil =>
    refine ⟨List.nil_prefix, fun hres => ?_, fun _ _ hres => ?_, fun _ hres => ?_⟩ <;> cases hres
  | cons ev evs ih =>
    rcases hr : sendCtmpMsgRound m p ev with ⟨bs, r⟩
    obtain ⟨hbs, hmore, hret⟩ := sendCtmpMsgRound_spec hp.1 hr
    obtain ⟨rest, hrest⟩ := hbs
    have hcount := congrArg List.length hrest
    rw [List.length_append, List.length_drop] at hcount
    cases r with
    | ret res =>
      obtain ⟨hle, hneg⟩ := sendCtmpMsgRound_ret hp hr
      rw [sendCtmpMsgFrom, hr]
      refine ⟨⟨rest, hrest⟩, fun hres => ?_, fun res' hres' hres heq => ?_, fun res' hres => ?_⟩
      · have hall := hret res rfl (by cases hres; decide)
        have hnil : rest = [] := List.eq_nil_of_length_eq_zero (by omega)
        rw [hnil, List.append_nil] at hrest
        exact hrest
      · cases hres
        have hlt := hneg hres'
        have heq' := congrArg List.length heq
        simp only [List.length_drop] at heq'
        omega
      · cases hres
        exact hle
    | more p' =>
      have hp' := (sendCtmpMsgRound_more hp hlen hr).1
      have hdrop : m.image.drop p.written = bs ++ m.image.drop p'.written := by
        rw [(hmore p' rfl).2, ← List.drop_drop, ← hrest, List.drop_left]
      rw [sendCtmpMsgFrom, hr, hdrop]
      exact (ih hp').append

/-- `send_ctmp_msg` returns once as many calls of `send` were not interrupted as there
are bytes to send. -/
theorem sendCtmpMsgFrom_returns (hlen : 0 < m.len.toNat) (sched : List SendEvent) {p : SendPc}
    (hp : p.Sending m) (h : m.image.length ≤ p.written + uninterrupted sched) :
    (sendCtmpMsgFrom m p sched).res ≠ none := by
  induction sched generalizing p with
  | nil =>
    have hlt := hp.2
    have hzero : uninterrupted [] = 0 := rfl
    omega
  | cons ev evs ih =>
    rcases hr : sendCtmpMsgRound m p ev with ⟨bs, r⟩
    rw [sendCtmpMsgFrom, hr]
    cases r with
    | ret res => simp
    | more p' =>
      obtain ⟨hp', hne⟩ := sendCtmpMsgRound_more hp hlen hr
      have hwritten := ((sendCtmpMsgRound_spec hp.1 hr).2.1 p' rfl).2
      apply ih hp'
      rw [uninterrupted, List.countP_cons] at h
      rw [uninterrupted]
      by_cases hev : ev = .eintr
      · rw [if_neg (by simpa using hev)] at h
        omega
      · have hpos := List.length_pos_of_ne_nil (hne hev)
        rw [if_pos (by simpa using hev)] at h
        omega

theorem sending_start (hlen : 0 < m.len.toNat) : (SendPc.header 0).Sending m := by
  have himage := m.length_image
  have hheader : headerLength = 8 := rfl
  refine ⟨?_, ?_⟩
  · rw [SendPc.Within]
    decide
  · rw [SendPc.written]
    omega

/-! ## A returned message is forwarded -/

/-- **Forwarding is verbatim**: what a parser took from the stream for a message that it
returned is what `send_ctmp_msg` writes when it returns 0, and more than what it writes
when it fails; and the parser returns the message again on these bytes. -/
theorem forwarded_verbatim {mode : Mode} {host : Endian} {c : Conn}
    (h : (ctmpParse mode host c).msg = some m) :
    ∃ bytes, c.stream = bytes ++ (ctmpParse mode host c).conn.stream ∧
      (∀ sched, SentOf bytes (sendCtmpMsg m sched) ∧
        (bytes.length ≤ uninterrupted sched → (sendCtmpMsg m sched).res ≠ none)) ∧
      ∀ c' : Conn, c'.NoError → c'.stream = bytes →
        (ctmpParse mode host c').msg = some m ∧ (ctmpParse mode host c').conn.stream = [] := by
  obtain ⟨hstream, hmagic, hset, hpos, hpass⟩ := parse_some h
  have hstart := sending_start hpos
  refine ⟨m.image, hstream, fun sched => ⟨sendCtmpMsgFrom_spec hpos sched hstart, fun hsched => ?_⟩,
    fun c' hc' hs' => ?_⟩
  · refine sendCtmpMsgFrom_returns hpos sched hstart ?_
    rw [SendPc.written, Nat.zero_add]
    exact hsched
  · have hagain : (ctmpParse mode host c').msg = some m := by
      rw [(parse_spec mode host hc').1, decode_eq_some_iff, hs']
      exact ⟨List.prefix_rfl, hmagic, hset, hpos, hpass⟩
    have hs'' := (parse_some hagain).1
    rw [hs', List.self_eq_append_right] at hs''
    exact ⟨hagain, hs''⟩

theorem forwarded_verbatim_one_byte :
    ∃ bytes, [0xcc, 0, 0, 1, 0, 0, 0, 0, 0x41, 0xcc] = bytes ++ (ctmpParse .base .little
        ⟨[0xcc, 0, 0, 1, 0, 0, 0, 0, 0x41, 0xcc], true, [.bytes 3]⟩).conn.stream ∧
      (sendCtmpMsg ⟨⟨[0xcc, 0, 0, 1, 0, 0, 0, 0], rfl⟩, 1, [0x41], rfl⟩
        [.bytes 5, .eintr, .bytes 8, .bytes 8]).written = bytes := by
  have hparse : (ctmpParse .base .little
      ⟨[0xcc, 0, 0, 1, 0, 0, 0, 0, 0x41, 0xcc], true, [.bytes 3]⟩).msg =
        some ⟨⟨[0xcc, 0, 0, 1, 0, 0, 0, 0], rfl⟩, 1, [0x41], rfl⟩ :=
    (parse_eq_some_iff fun e => by simp).mpr ⟨by decide, by decide, by decide, trivial⟩
  obtain ⟨bytes, hstream, hsent, -⟩ := forwarded_verbatim hparse
  exact ⟨bytes, hstream, (hsent _).1.done (by decide)⟩

end WireStorm
