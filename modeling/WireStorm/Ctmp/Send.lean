import WireStorm.Ctmp.Stream

/-!
# Sending to a receiver

`send_msg` and `send_ctmp_msg` of `lib/ctmp.c`, one call of `send(2)` at a time
(`sendCtmpMsgRound`): other threads take steps between the calls. Each round
writes the next bytes of the image of the message (`sendCtmpMsgRound_spec`).
-/

namespace WireStorm

/-- How one call of `send` turns out: it takes at most `n` bytes, is interrupted,
or fails. -/
inductive SendEvent
  | bytes (n : Nat)
  | eintr
  | error (e : Errno)
  deriving DecidableEq, Repr

/-! ## `send_msg` -/

/-- After a round of the loop of `send_msg`: go on with `total_bytes_sent`, or return. -/
inductive SendMsg
  | more (total : Nat)
  | ret (res : Int)
  deriving DecidableEq, Repr

/-- The test after the loop of `send_msg`. -/
def sendMsgResult (len total : Nat) : Int := if total = len then 0 else -1

/-- The loop test of `send_msg`. -/
def sendMsgNext (len total : Nat) : SendMsg :=
  if total < len then .more total else .ret (sendMsgResult len total)

/-- One round of the loop of `send_msg`: the bytes written and how it goes on. -/
def sendMsgRound (buf : List UInt8) (total : Nat) : SendEvent → List UInt8 × SendMsg
  | .eintr =>
    -- interrupted by syscall: `continue` goes on to the loop test
    ([], sendMsgNext buf.length total)
  | .error e => ([], .ret (-e.code))
  | .bytes n =>
    let sent := (buf.drop total).take n
    if sent = [] then
      ([], .ret (sendMsgResult buf.length total))
    else
      (sent, sendMsgNext buf.length (total + sent.length))

theorem sendMsgNext_more {len total t : Nat} (h : sendMsgNext len total = .more t) :
    t = total ∧ total < len := by
  unfold sendMsgNext at h
  split at h
  · rename_i hlt
    cases h
    exact ⟨rfl, hlt⟩
  · cases h

theorem sendMsgNext_ret {len total : Nat} {res : Int} (h : sendMsgNext len total = .ret res)
    (hres : 0 ≤ res) : total = len := by
  unfold sendMsgNext sendMsgResult at h
  split at h
  · cases h
  · split at h
    · assumption
    · cases h
      omega

/-- A round of `send_msg` writes the next bytes of the buffer, and returns 0 only
when it has written all of it. -/
theorem sendMsgRound_spec {buf : List UInt8} {total : Nat} {ev : SendEvent} {bs : List UInt8}
    {r : SendMsg} (h : sendMsgRound buf total ev = (bs, r)) :
    bs <+: buf.drop total ∧
      (∀ t, r = .more t → t = total + bs.length ∧ t < buf.length) ∧
      (∀ res, r = .ret res → 0 ≤ res → total + bs.length = buf.length) := by
  cases ev with
  | eintr =>
    cases h
    refine ⟨List.nil_prefix, fun t ht => ?_, fun res hr hres => sendMsgNext_ret hr hres⟩
    obtain ⟨rfl, hlt⟩ := sendMsgNext_more ht
    exact ⟨rfl, hlt⟩
  | error e =>
    cases h
    refine ⟨List.nil_prefix, fun t ht => (nomatch ht), fun res hr hres => ?_⟩
    cases hr
    have := e.pos
    omega
  | bytes n =>
    simp only [sendMsgRound] at h
    split at h
    · cases h
      refine ⟨List.nil_prefix, fun t ht => (nomatch ht), fun res hr hres => ?_⟩
      simp only [SendMsg.ret.injEq, sendMsgResult] at hr
      split at hr
      · assumption
      · omega
    · cases h
      refine ⟨List.take_prefix _ _, fun t ht => ?_, fun res hr hres => sendMsgNext_ret hr hres⟩
      obtain ⟨rfl, hlt⟩ := sendMsgNext_more ht
      exact ⟨rfl, hlt⟩

/-! ## `send_ctmp_msg` -/

/-- Where `send_ctmp_msg` is: in the `send_msg` of the header or in that of the
data, with `total_bytes_sent`. -/
inductive SendPc
  | header (total : Nat)
  | data (total : Nat)
  deriving DecidableEq, Repr

/-- After a round of `send_ctmp_msg`. -/
inductive SendCtmpMsg
  | more (p : SendPc)
  | ret (res : Int)
  deriving DecidableEq, Repr

/-- One call of `send` in `send_ctmp_msg`: the bytes written and how it goes on. -/
def sendCtmpMsgRound (m : CtmpMsg) (p : SendPc) (ev : SendEvent) : List UInt8 × SendCtmpMsg :=
  match p with
  | .header total =>
    match sendMsgRound m.header.bytes total ev with
    | (bs, .more t) => (bs, .more (.header t))
    | (bs, .ret res) => (bs, if res < 0 then .ret res else .more (.data 0))
  | .data total =>
    match sendMsgRound m.data total ev with
    | (bs, .more t) => (bs, .more (.data t))
    | (bs, .ret res) => (bs, .ret res)

/-- The bytes of the image written so far. -/
def SendPc.written : SendPc → Nat
  | .header total => total
  | .data total => headerLength + total

/-- `total_bytes_sent` stays within the buffer. -/
def SendPc.Within (m : CtmpMsg) : SendPc → Prop
  | .header total => total < headerLength
  | .data total => total ≤ m.data.length

theorem image_drop_header (m : CtmpMsg) {total : Nat} (h : total ≤ headerLength) :
    m.image.drop total = m.header.bytes.drop total ++ m.data := by
  rw [CtmpMsg.image, List.drop_append_of_le_length (by rw [m.header.length_eq]; exact h)]

theorem image_drop_data (m : CtmpMsg) (total : Nat) :
    m.image.drop (headerLength + total) = m.data.drop total := by
  rw [CtmpMsg.image, ← m.header.length_eq, List.drop_length_add_append]

/-- **A round of `send_ctmp_msg`** writes the next bytes of the image, and returns
0 only when it has written all of it. -/
theorem sendCtmpMsgRound_spec {m : CtmpMsg} {p : SendPc} {ev : SendEvent} {bs : List UInt8}
    {r : SendCtmpMsg} (hp : p.Within m) (h : sendCtmpMsgRound m p ev = (bs, r)) :
    bs <+: m.image.drop p.written ∧
      (∀ p', r = .more p' → p'.Within m ∧ p'.written = p.written + bs.length) ∧
      (∀ res, r = .ret res → 0 ≤ res → p.written + bs.length = m.image.length) := by
  cases p with
  | header total =>
    rw [SendPc.written, image_drop_header m (Nat.le_of_lt hp)]
    simp only [sendCtmpMsgRound] at h
    split at h
    · rename_i t hr
      cases h
      obtain ⟨hbs, hmore, -⟩ := sendMsgRound_spec hr
      refine ⟨hbs.trans (List.prefix_append _ _), fun p' hp' => ?_, fun res hr' => nomatch hr'⟩
      cases hp'
      obtain ⟨ht, hlt⟩ := hmore t rfl
      rw [m.header.length_eq] at hlt
      exact ⟨hlt, ht⟩
    · rename_i bs res hr
      cases h
      obtain ⟨hbs, -, hret⟩ := sendMsgRound_spec hr
      refine ⟨hbs.trans (List.prefix_append _ _), fun p' hp' => ?_, fun res' hr' hres' => ?_⟩
      · split at hp'
        · cases hp'
        · cases hp'
          have hall := hret res rfl (by omega)
          rw [m.header.length_eq] at hall
          exact ⟨Nat.zero_le _, hall.symm⟩
      · split at hr'
        · cases hr'
          omega
        · cases hr'
  | data total =>
    rw [SendPc.written, image_drop_data]
    simp only [sendCtmpMsgRound] at h
    split at h
    · rename_i t hr
      cases h
      obtain ⟨hbs, hmore, -⟩ := sendMsgRound_spec hr
      refine ⟨hbs, fun p' hp' => ?_, fun res hr' => nomatch hr'⟩
      cases hp'
      obtain ⟨ht, hlt⟩ := hmore t rfl
      exact ⟨Nat.le_of_lt hlt, by rw [SendPc.written, ht, Nat.add_assoc]⟩
    · rename_i bs res hr
      cases h
      obtain ⟨hbs, -, hret⟩ := sendMsgRound_spec hr
      refine ⟨hbs, fun p' hp' => (nomatch hp'), fun res' hr' hres' => ?_⟩
      cases hr'
      rw [Nat.add_assoc, hret res rfl hres', m.length_image, m.data_length]

end WireStorm
