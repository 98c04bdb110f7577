import WireStorm.Ctmp.Message

/-!
# Reading from a source connection

`read(2)` and `recv(2)` on a stream socket whose peer sends a fixed byte stream
and then closes, and `read_msg` of `lib/ctmp.c`. How much each read returns and
where it is interrupted or fails is a schedule (`ReadEvent`); past its end every
read returns all it can. `readMsg_spec` gives the outcome of `read_msg` without
read errors: it depends on the bytes alone.
-/

namespace WireStorm

/-! ## The socket -/

/-- An `errno` value other than `EINTR`. -/
structure Errno where
  code : Nat
  pos : 0 < code
  ne_eintr : code ≠ 4
  deriving DecidableEq, Repr

/-- `EPIPE`: the peer has closed the connection. -/
def Errno.epipe : Errno := ⟨32, by decide, by decide⟩

/-- How one call of `read` turns out: it returns at most `n` bytes, is
interrupted, or fails. -/
inductive ReadEvent
  | bytes (n : Nat)
  | eintr
  | error (e : Errno)
  deriving DecidableEq, Repr

/-- A source connection: the bytes not read yet, whether the peer still has to
close it after them, and the outcomes of the reads to come. -/
structure Conn where
  stream : List UInt8
  peerOpen : Bool
  sched : List ReadEvent
  deriving DecidableEq, Repr

inductive ReadResult
  | data (bs : List UInt8)
  | eintr
  | error (e : Errno)
  deriving DecidableEq, Repr

namespace Conn

/-- Take at most `n` bytes. With nothing left a read of a positive count waits
until the peer has closed the connection and returns nothing. -/
def take (c : Conn) (n : Nat) (sched : List ReadEvent) : ReadResult × Conn :=
  (.data (c.stream.take n),
    { stream := c.stream.drop n
      peerOpen := if n ≠ 0 ∧ c.stream = [] then false else c.peerOpen
      sched := sched })

/-- `read(fd, buf, count)`. A scheduled amount is cut to `1 .. count`. -/
def read (c : Conn) (count : Nat) : ReadResult × Conn :=
  match c.sched with
  | [] => c.take count []
  | .bytes n :: es => c.take (min (max n 1) count) es
  | .eintr :: es => (.eintr, { c with sched := es })
  | .error e :: es => (.error e, { c with sched := es })

/-- `is_alive`: a peek finds no end of stream. -/
def isAlive (c : Conn) : Bool := !c.stream.isEmpty || c.peerOpen

/-- Bounds the reads that a connection still allows. -/
def measure (c : Conn) : Nat := c.stream.length + c.sched.length + c.peerOpen.toNat

/-- No read of the schedule fails with an error other than `EINTR`. -/
def NoError (c : Conn) : Prop := ∀ e, ReadEvent.error e ∉ c.sched

theorem take_measure_le (c : Conn) (n : Nat) (es : List ReadEvent)
    (hes : es.length ≤ c.sched.length) : (c.take n es).2.measure ≤ c.measure := by
  have hopen : (if n ≠ 0 ∧ c.stream = [] then false else c.peerOpen).toNat ≤ c.peerOpen.toNat := by
    split
    · exact Nat.zero_le _
    · exact Nat.le_refl _
  simp only [take, measure, List.length_drop]
  omega

theorem take_measure_lt {c : Conn} {n : Nat} (hn : n ≠ 0) (hc : c.isAlive = true)
    {es : List ReadEvent} (hes : es.length ≤ c.sched.length) :
    (c.take n es).2.measure < c.measure := by
  cases hs : c.stream with
  | nil =>
    have hopen : c.peerOpen = true := by simpa [isAlive, hs] using hc
    simp only [take, measure, hs, hopen, List.drop_nil, List.length_nil, ne_eq, hn,
      not_false_eq_true, and_self, ite_true, Bool.toNat_false, Bool.toNat_true]
    omega
  | cons b bs =>
    simp only [take, measure, hs, List.length_drop, List.length_cons, reduceCtorEq, and_false,
      ite_false]
    omega

/-- A read that returns data took some `k ≤ count` bytes, at least one when any was asked for. -/
theorem read_data {c c' : Conn} {count : Nat} {bs : List UInt8}
    (h : c.read count = (.data bs, c')) :
    ∃ k es, k ≤ count ∧ (count ≠ 0 → k ≠ 0) ∧ es <:+ c.sched ∧ c.take k es = (.data bs, c') := by
  unfold read at h
  split at h
  · exact ⟨count, [], Nat.le_refl _, id, List.nil_suffix, h⟩
  · rename_i n es hs
    exact ⟨_, es, Nat.min_le_right _ _, fun h0 => by omega, hs ▸ List.suffix_cons _ _, h⟩
  · cases h
  · cases h

theorem read_eintr {c c' : Conn} {count : Nat} (h : c.read count = (.eintr, c')) :
    c.sched = .eintr :: c'.sched ∧ c'.stream = c.stream ∧ c'.peerOpen = c.peerOpen := by
  unfold read at h
  split at h
  · cases h
  · cases h
  · rename_i es hs
    cases h
    exact ⟨hs, rfl, rfl⟩
  · cases h

theorem read_error {c c' : Conn} {count : Nat} {e : Errno} (h : c.read count = (.error e, c')) :
    c.sched = .error e :: c'.sched ∧ c'.stream = c.stream ∧ c'.peerOpen = c.peerOpen := by
  unfold read at h
  split at h
  · cases h
  · cases h
  · cases h
  · rename_i e es hs
    cases h
    exact ⟨hs, rfl, rfl⟩

/-- The peer does not open its end again. -/
theorem read_peerOpen {c : Conn} (h : c.peerOpen = false) (count : Nat) :
    (c.read count).2.peerOpen = false := by
  rcases hr : c.read count with ⟨r, c'⟩
  cases r with
  | data bs =>
    obtain ⟨k, es, -, -, -, htake⟩ := read_data hr
    simp only [take, Prod.mk.injEq] at htake
    rw [← htake.2, h]
    exact ite_self _
  | eintr => exact (read_eintr hr).2.2.trans h
  | error e => exact (read_error hr).2.2.trans h

/-- Reads use up what a connection allows, and a read of a positive count on a
live connection makes progress. -/
theorem read_measure (c : Conn) (count : Nat) :
    (c.read count).2.measure ≤ c.measure ∧
      (count ≠ 0 → c.isAlive = true → (c.read count).2.measure < c.measure) := by
  rcases hr : c.read count with ⟨r, c'⟩
  cases r with
  | data bs =>
    obtain ⟨k, es, -, hk, hes, htake⟩ := read_data hr
    have hle := take_measure_le c k es hes.length_le
    have hlt := fun h0 hc => take_measure_lt (n := k) (hk h0) hc hes.length_le
    rw [htake] at hle hlt
    exact ⟨hle, hlt⟩
  | eintr =>
    obtain ⟨hs, hstream, hopen⟩ := read_eintr hr
    simp only [measure, hs, hstream, hopen, List.length_cons]
    omega
  | error e =>
    obtain ⟨hs, hstream, hopen⟩ := read_error hr
    simp only [measure, hs, hstream, hopen, List.length_cons]
    omega

end Conn

/-! ## `read_msg` -/

/-- What `read_msg` leaves: its return value, the bytes stored in `buf` and the connection. -/
structure ReadMsg where
  res : Int
  buf : List UInt8
  conn : Conn
  deriving DecidableEq, Repr

/-- The tests after the loop of `read_msg`. -/
def readMsgResult (len : Nat) (buf : List UInt8) : Int :=
  if buf.length = 0 then -1 else if buf.length = len then 0 else -1

/-- The loop of `read_msg`, with `buf` stored so far (`total_bytes_read` is its length). -/
def readMsgLoop (len : Nat) (c : Conn) (buf : List UInt8) : ReadMsg :=
  match _hr : c.read (len - buf.length) with
  | (.eintr, c') =>
    -- interrupted by syscall: `continue` goes on to the loop test
    if buf.length < len then readMsgLoop len c' buf else ⟨readMsgResult len buf, buf, c'⟩
  | (.error e, c') => ⟨-e.code, buf, c'⟩
  | (.data bs, c') =>
    if bs = [] then
      ⟨readMsgResult len buf, buf, c'⟩
    else
      if (buf ++ bs).length < len then readMsgLoop len c' (buf ++ bs)
      else ⟨readMsgResult len (buf ++ bs), buf ++ bs, c'⟩
termination_by c.measure + (len - buf.length)
decreasing_by
  · obtain ⟨hs, hstream, hopen⟩ := Conn.read_eintr _hr
    simp only [Conn.measure, hs, hstream, hopen, List.length_cons]
    omega
  · rename_i hbs hlen
    have hle : c'.measure ≤ c.measure := by
      simpa only [_hr] using (c.read_measure (len - buf.length)).1
    have hpos := List.length_pos_of_ne_nil hbs
    rw [List.length_append] at hlen ⊢
    omega

/-- `read_msg(fd, buf, len)`. -/
def readMsg (c : Conn) (len : Nat) : ReadMsg := readMsgLoop len c []

/-- `c'` is what is left of `c` after up to `n` bytes were read from it without error. -/
structure Drained (c : Conn) (n : Nat) (c' : Conn) : Prop where
  stream : c'.stream = c.stream.drop n
  peerOpen : c'.peerOpen = if c.stream.length < n then false else c.peerOpen
  noError : c'.NoError

theorem Conn.NoError.mono {c c' : Conn} (hc : c.NoError) (h : c'.sched ⊆ c.sched) : c'.NoError :=
  fun e he => hc e (h he)

theorem readMsgLoop_measure (len : Nat) (c : Conn) (buf : List UInt8) :
    (readMsgLoop len c buf).conn.measure ≤ c.measure ∧
      (buf.length < len → c.isAlive = true →
        (readMsgLoop len c buf).conn.measure < c.measure) := by
  -- whatever the first read of the loop returns, it is measured by `read_measure`
  have hread : ∀ {c c' : Conn} {buf : List UInt8} {r : ReadResult},
      c.read (len - buf.length) = (r, c') → c'.measure ≤ c.measure ∧
        (buf.length < len → c.isAlive = true → c'.measure < c.measure) := by
    intro c c' buf r hr
    have hm := c.read_measure (len - buf.length)
    simp only [hr] at hm
    exact ⟨hm.1, fun hlt => hm.2 (by omega)⟩
  fun_induction readMsgLoop len c buf with
  | case1 c buf c' hr hlen ih =>
    exact ⟨Nat.le_trans ih.1 (hread hr).1,
      fun hlt hal => Nat.lt_of_le_of_lt ih.1 ((hread hr).2 hlt hal)⟩
  | case2 c buf c' hr hlen => exact hread hr
  | case3 c buf e c' hr => exact hread hr
  | case4 c buf c' hr => exact hread hr
  | case5 c buf bs c' hr hbs hlen ih =>
    exact ⟨Nat.le_trans ih.1 (hread hr).1,
      fun hlt hal => Nat.lt_of_le_of_lt ih.1 ((hread hr).2 hlt hal)⟩
  | case6 c buf bs c' hr hbs hlen => exact hread hr

theorem take_append_take_drop (s : List UInt8) {k n : Nat} (hkn : k ≤ n) :
    s.take k ++ (s.drop k).take (n - (s.take k).length) = s.take n := by
  rcases Nat.le_total k s.length with hk | hk
  · rw [List.length_take_of_le hk, ← List.take_add, Nat.add_sub_cancel' hkn]
  · rw [List.take_of_length_le hk, List.drop_of_length_le hk, List.take_nil, List.append_nil,
      List.take_of_length_le (Nat.le_trans hk hkn)]

theorem drop_drop_sub_take (s : List UInt8) {k n : Nat} (hkn : k ≤ n) :
    (s.drop k).drop (n - (s.take k).length) = s.drop n := by
  rcases Nat.le_total k s.length with hk | hk
  · rw [List.length_take_of_le hk, List.drop_drop, Nat.add_sub_cancel' hkn]
  · rw [List.drop_of_length_le hk, List.drop_nil, List.drop_of_length_le (Nat.le_trans hk hkn)]

/-- The loop stores what it asks for, up to the end of the stream. -/
theorem readMsgLoop_spec (len : Nat) (c : Conn) (buf : List UInt8) (hc : c.NoError)
    (hbuf : buf.length < len ∨ len = 0 ∧ buf = []) :
    (readMsgLoop len c buf).buf = buf ++ c.stream.take (len - buf.length) ∧
      (readMsgLoop len c buf).res = readMsgResult len (readMsgLoop len c buf).buf ∧
      Drained c (len - buf.length) (readMsgLoop len c buf).conn := by
  fun_induction readMsgLoop len c buf with
  | case1 c buf c' hr hlen ih =>
    obtain ⟨hs, hstream, hopen⟩ := Conn.read_eintr hr
    obtain ⟨hb, hres, hd⟩ := ih (hc.mono (by simp [hs])) (.inl hlen)
    rw [hstream] at hb
    exact ⟨hb, hres, ⟨by rw [hd.stream, hstream], by rw [hd.peerOpen, hstream, hopen], hd.noError⟩⟩
  | case2 c buf c' hr hlen =>
    -- the loop ends on an interrupted read only when nothing was asked for
    obtain ⟨rfl, rfl⟩ := hbuf.resolve_left hlen
    obtain ⟨hs, hstream, hopen⟩ := Conn.read_eintr hr
    exact ⟨by simp, rfl, ⟨by simp [hstream], by simp [hopen], hc.mono (by simp [hs])⟩⟩
  | case3 c buf e c' hr =>
    obtain ⟨hs, -⟩ := Conn.read_error hr
    exact absurd (by simp [hs]) (hc e)
  | case4 c buf c' hr =>
    obtain ⟨k, es, hkn, hk0, hes, htake⟩ := Conn.read_data hr
    simp only [Conn.take, Prod.mk.injEq, ReadResult.data.injEq] at htake
    obtain ⟨hbs, rfl⟩ := htake
    have hne : Conn.NoError ⟨c.stream.drop k,
        if k ≠ 0 ∧ c.stream = [] then false else c.peerOpen, es⟩ := hc.mono hes.subset
    rcases List.take_eq_nil_iff.mp hbs with rfl | hnil
    · have h0 : len - buf.length = 0 := by
        by_contra h
        exact hk0 h rfl
      rw [h0]
      exact ⟨by simp, rfl, ⟨rfl, by simp, hne⟩⟩
    · refine ⟨by simp [hnil], rfl, ⟨by simp [hnil], ?_, hne⟩⟩
      simp only [hnil, List.length_nil, Nat.pos_iff_ne_zero, and_true]
      by_cases h0 : len - buf.length = 0
      · rw [if_neg (not_not.mpr (by omega)), if_neg (not_not.mpr h0)]
      · rw [if_pos (hk0 h0), if_pos h0]
  | case5 c buf bs c' hr hbs hlen ih =>
    obtain ⟨k, es, hkn, -, hes, htake⟩ := Conn.read_data hr
    simp only [Conn.take, Prod.mk.injEq, ReadResult.data.injEq] at htake
    obtain ⟨rfl, rfl⟩ := htake
    have hnil : c.stream ≠ [] := fun e => hbs (by rw [e, List.take_nil])
    obtain ⟨hb, hres, hd⟩ := ih (hc.mono hes.subset) (.inl hlen)
    have hlt : (c.stream.take k).length < len - buf.length := by
      rw [List.length_append] at hlen
      omega
    rw [List.length_append, ← Nat.sub_sub, List.append_assoc, take_append_take_drop _ hkn] at hb
    rw [List.length_append, ← Nat.sub_sub] at hd
    refine ⟨hb, hres, ⟨by rw [hd.stream, drop_drop_sub_take _ hkn], ?_, hd.noError⟩⟩
    have hopen : (if k ≠ 0 ∧ c.stream = [] then false else c.peerOpen) = c.peerOpen :=
      if_neg fun h => hnil h.2
    rw [List.length_take] at hlt
    rw [hd.peerOpen, hopen, List.length_drop, List.length_take]
    exact if_congr (by omega) rfl rfl
  | case6 c buf bs c' hr hbs hlen =>
    obtain ⟨k, es, hkn, -, hes, htake⟩ := Conn.read_data hr
    simp only [Conn.take, Prod.mk.injEq, ReadResult.data.injEq] at htake
    obtain ⟨rfl, rfl⟩ := htake
    have hnil : c.stream ≠ [] := fun e => hbs (by rw [e, List.take_nil])
    have hk0 : k ≠ 0 := fun e => hbs (by rw [e, List.take_zero])
    obtain ⟨rfl, hks⟩ : k = len - buf.length ∧ k ≤ c.stream.length := by
      rw [List.length_append, List.length_take] at hlen
      omega
    refine ⟨rfl, rfl, ⟨rfl, ?_, hc.mono hes.subset⟩⟩
    rw [if_neg (fun h => hnil h.2), if_neg (by omega)]

theorem readMsgLoop_peerOpen (len : Nat) {c : Conn} (buf : List UInt8) (h : c.peerOpen = false) :
    (readMsgLoop len c buf).conn.peerOpen = false := by
  have hread : ∀ {c c' : Conn} {count : Nat} {r : ReadResult}, c.read count = (r, c') →
      c.peerOpen = false → c'.peerOpen = false := by
    intro c c' count r hr hc
    have hc' := Conn.read_peerOpen hc count
    rwa [hr] at hc'
  fun_induction readMsgLoop len c buf with
  | case1 c buf c' hr hlen ih => exact ih (hread hr h)
  | case2 c buf c' hr hlen => exact hread hr h
  | case3 c buf e c' hr => exact hread hr h
  | case4 c buf c' hr => exact hread hr h
  | case5 c buf bs c' hr hbs hlen ih => exact ih (hread hr h)
  | case6 c buf bs c' hr hbs hlen => exact hread hr h

theorem readMsg_measure (c : Conn) (len : Nat) :
    (readMsg c len).conn.measure ≤ c.measure ∧
      (0 < len → c.isAlive = true → (readMsg c len).conn.measure < c.measure) :=
  readMsgLoop_measure len c []

/-- **`read_msg` without read errors** depends on the bytes alone: it stores the
next `len` bytes of the stream or all that are left, and succeeds when it was
asked for at least one byte and got them all. -/
theorem readMsg_spec (c : Conn) (len : Nat) (hc : c.NoError) :
    (readMsg c len).buf = c.stream.take len ∧
      (readMsg c len).res = (if 0 < len ∧ len ≤ c.stream.length then 0 else -1) ∧
      Drained c len (readMsg c len).conn := by
  obtain ⟨hb, hres, hd⟩ := readMsgLoop_spec len c [] hc (by
    rcases Nat.eq_zero_or_pos len with h | h
    · exact .inr ⟨h, rfl⟩
    · exact .inl h)
  rw [List.length_nil, Nat.sub_zero] at hd
  rw [List.length_nil, Nat.sub_zero, List.nil_append] at hb
  refine ⟨hb, ?_, hd⟩
  rw [readMsg, hres, hb, readMsgResult, List.length_take]
  split <;> split <;> try split
  all_goals first | rfl | omega

theorem readMsgResult_nonneg {len : Nat} {buf : List UInt8} (h : 0 ≤ readMsgResult len buf) :
    buf.length = len ∧ 0 < len := by
  unfold readMsgResult at h
  split at h
  · omega
  · split at h
    · omega
    · omega

/-- Whatever the reads return, the loop stores what it takes from the stream, and it
succeeds only when it got all that it asked for. -/
theorem readMsgLoop_stored (len : Nat) (c : Conn) (buf : List UInt8) :
    (∃ new, (readMsgLoop len c buf).buf = buf ++ new ∧
      c.stream = new ++ (readMsgLoop len c buf).conn.stream) ∧
    (0 ≤ (readMsgLoop len c buf).res → (readMsgLoop len c buf).buf.length = len ∧ 0 < len) := by
  fun_induction readMsgLoop len c buf with
  | case1 c buf c' hr hlen ih =>
    obtain ⟨⟨new, hbuf, hstream⟩, hres⟩ := ih
    rw [(Conn.read_eintr hr).2.1] at hstream
    exact ⟨⟨new, hbuf, hstream⟩, hres⟩
  | case2 c buf c' hr hlen =>
    exact ⟨⟨[], by simp, by simp [(Conn.read_eintr hr).2.1]⟩, readMsgResult_nonneg⟩
  | case3 c buf e c' hr =>
    refine ⟨⟨[], by simp, by simp [(Conn.read_error hr).2.1]⟩, fun h => ?_⟩
    have := e.pos
    simp only at h
    omega
  | case4 c buf c' hr =>
    obtain ⟨k, es, -, -, -, htake⟩ := Conn.read_data hr
    simp only [Conn.take, Prod.mk.injEq, ReadResult.data.injEq] at htake
    obtain ⟨hbs, rfl⟩ := htake
    refine ⟨⟨[], by simp, ?_⟩, readMsgResult_nonneg⟩
    have hdrop := List.take_append_drop k c.stream
    rw [hbs] at hdrop
    exact hdrop.symm
  | case5 c buf bs c' hr hbs hlen ih =>
    obtain ⟨k, es, -, -, -, htake⟩ := Conn.read_data hr
    simp only [Conn.take, Prod.mk.injEq, ReadResult.data.injEq] at htake
    obtain ⟨rfl, rfl⟩ := htake
    obtain ⟨⟨new, hbuf, hstream⟩, hres⟩ := ih
    refine ⟨⟨c.stream.take k ++ new, by rw [hbuf, List.append_assoc], ?_⟩, hres⟩
    rw [List.append_assoc, ← hstream, List.take_append_drop]
  | case6 c buf bs c' hr hbs hlen =>
    obtain ⟨k, es, -, -, -, htake⟩ := Conn.read_data hr
    simp only [Conn.take, Prod.mk.injEq, ReadResult.data.injEq] at htake
    obtain ⟨rfl, rfl⟩ := htake
    exact ⟨⟨c.stream.take k, rfl, (List.take_append_drop k c.stream).symm⟩, readMsgResult_nonneg⟩

/-- **A successful `read_msg`** took the next `len` bytes of the stream, whatever the
reads returned. -/
theorem readMsg_success {c : Conn} {len : Nat} (h : 0 ≤ (readMsg c len).res) :
    (readMsg c len).buf.length = len ∧ 0 < len ∧
      c.stream = (readMsg c len).buf ++ (readMsg c len).conn.stream := by
  obtain ⟨⟨new, hbuf, hstream⟩, hres⟩ := readMsgLoop_stored len c []
  obtain ⟨hlen, hpos⟩ := hres h
  rw [List.nil_append] at hbuf
  refine ⟨hlen, hpos, ?_⟩
  rw [readMsg, hbuf]
  exact hstream

end WireStorm
