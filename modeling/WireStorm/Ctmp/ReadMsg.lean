import WireStorm.Ctmp.Stream
import WireStorm.Lib.Transition

/-!
# `read_msg` against its documentation

The reads that a call of `read_msg` makes, as the steps of a transition system
(`readLoop`), and what its comment says about the outcome (`ReadsAsDocumented`). For
every positive length the comment is right, whatever the reads return; a call for
no bytes at all is never successful (`readsAsDocumented_iff`).
-/

namespace WireStorm

/-! ## The reads of a call -/

/-- Before a read of the loop of `read_msg`: the bytes stored so far, and the connection. -/
structure ReadState where
  buf : List UInt8
  conn : Conn

/-- The bytes that a read returns. -/
def ReadResult.bytes : ReadResult → List UInt8
  | .data bs => bs
  | .eintr | .error _ => []

/-- The loop goes round after an interrupted read and after one that returned something. -/
def ReadResult.GoesOn : ReadResult → Prop
  | .data bs => bs ≠ []
  | .eintr => True
  | .error _ => False

/-- The loop of `read_msg`, from one read to the next. -/
def readLoop (len : Nat) (c : Conn) : LTS ReadState ReadResult where
  init s := s = ⟨[], c⟩
  step s r s' := s.conn.read (len - s.buf.length) = (r, s'.conn) ∧ r.GoesOn ∧
    s'.buf = s.buf ++ r.bytes ∧ s'.buf.length < len

/-- With `buf` stored the call makes a read that returns `r`. -/
def Answered (len : Nat) (c : Conn) (buf : List UInt8) (r : ReadResult) : Prop :=
  ∃ s c', (readLoop len c).Reachable s ∧ s.buf = buf ∧
    s.conn.read (len - s.buf.length) = (r, c')

/-- What the comment of `read_msg` says: 0 stands for the correct number of bytes, -1 for
a stream that ended before, another negative value for a failed read. All bytes taken from
the stream are stored, at most `len`. -/
structure ReadsAsDocumented (len : Nat) (c : Conn) : Prop where
  success : (readMsg c len).res = 0 ↔ (readMsg c len).buf.length = len
  stored : (readMsg c len).res = 0 → (readMsg c len).buf = c.stream.take len
  ended : ∀ buf, Answered len c buf (.data []) → buf.length < len → (readMsg c len).res = -1
  failed : ∀ buf e, Answered len c buf (.error e) → (readMsg c len).res = -e.code
  outcome : (readMsg c len).buf.length = len ∨
    (∃ buf, Answered len c buf (.data []) ∧ buf.length < len) ∨ ∃ buf e, Answered len c buf (.error e)
  consumed : c.stream = (readMsg c len).buf ++ (readMsg c len).conn.stream
  bounded : (readMsg c len).buf.length ≤ len

section
variable {len : Nat} {c : Conn} {s s' : ReadState} {r : ReadResult}

/-! ## One read -/

theorem read_bytes_le {c' : Conn} {count : Nat} (h : c.read count = (r, c')) :
    r.bytes.length ≤ count := by
  cases r with
  | data bs =>
    obtain ⟨k, es, hk, -, -, htake⟩ := Conn.read_data h
    simp only [Conn.take, Prod.mk.injEq, ReadResult.data.injEq] at htake
    rw [ReadResult.bytes, ← htake.1, List.length_take]
    omega
  | eintr | error e => exact Nat.zero_le _

/-- A read after which the loop goes round leaves the outcome to the rest of the loop. -/
theorem readMsgLoop_step (h : (readLoop len c).step s r s') :
    readMsgLoop len s.conn s.buf = readMsgLoop len s'.conn s'.buf := by
  obtain ⟨hread, hgoes, hbuf, hlt⟩ := h
  rw [readMsgLoop]
  split
  · rename_i c' heq
    obtain ⟨rfl, rfl⟩ := Prod.mk.inj (heq.symm.trans hread)
    rw [ReadResult.bytes, List.append_nil] at hbuf
    rw [if_pos (hbuf ▸ hlt), hbuf]
  · rename_i e c' heq
    obtain ⟨rfl, rfl⟩ := Prod.mk.inj (heq.symm.trans hread)
    cases hgoes
  · rename_i bs c' heq
    obtain ⟨rfl, rfl⟩ := Prod.mk.inj (heq.symm.trans hread)
    rw [ReadResult.bytes] at hbuf
    rw [if_neg hgoes, ← hbuf, if_pos hlt]

/-- **Every read of a call** is one of the loop that has the outcome of the call. -/
theorem readMsgLoop_reachable (h : (readLoop len c).Reachable s) :
    readMsgLoop len s.conn s.buf = readMsg c len := by
  refine h.invariant (I := fun s => readMsgLoop len s.conn s.buf = readMsg c len) ?_ ?_
  · rintro s rfl
    rfl
  · intro s r s' _ hi hs
    rw [← readMsgLoop_step hs]
    exact hi

theorem readMsg_ended {buf : List UInt8} (h : Answered len c buf (.data []))
    (hlt : buf.length < len) : (readMsg c len).res = -1 := by
  obtain ⟨s, c', hr, rfl, hread⟩ := h
  rw [← readMsgLoop_reachable hr, readMsgLoop]
  split <;> rename_i heq <;> cases heq.symm.trans hread
  rw [if_pos rfl, readMsgResult]
  split
  · rfl
  · rw [if_neg (Nat.ne_of_lt hlt)]

theorem readMsg_failed {buf : List UInt8} {e : Errno} (h : Answered len c buf (.error e)) :
    (readMsg c len).res = -e.code := by
  obtain ⟨s, c', hr, rfl, hread⟩ := h
  rw [← readMsgLoop_reachable hr, readMsgLoop]
  split <;> rename_i heq <;> cases heq.symm.trans hread
  rfl

/-! ## The whole call -/

/-- **The outcome of the loop**, from a read on that has something to ask for. -/
theorem readMsgLoop_outcome {c₁ : Conn} {buf : List UInt8} (hlt : buf.length < len)
    (hr : (readLoop len c).Reachable ⟨buf, c₁⟩) :
    (readMsgLoop len c₁ buf).buf.length ≤ len ∧
      ((readMsgLoop len c₁ buf).res = 0 ↔ (readMsgLoop len c₁ buf).buf.length = len) ∧
      ((readMsgLoop len c₁ buf).buf.length = len ∨
        (∃ buf', Answered len c buf' (.data []) ∧ buf'.length < len) ∨
          ∃ buf' e, Answered len c buf' (.error e)) := by
  fun_induction readMsgLoop len c₁ buf with
  | case1 c₁ buf c' hread hlen ih =>
    refine ih hlen (.step hr trivial ⟨hread, trivial, ?_, hlen⟩)
    rw [ReadResult.bytes, List.append_nil]
  | case2 c₁ buf c' hread hlen => exact absurd hlt hlen
  | case3 c₁ buf e c' hread =>
    have hpos := e.pos
    refine ⟨Nat.le_of_lt hlt, iff_of_false ?_ (Nat.ne_of_lt hlt), .inr (.inr ⟨buf, e, ?_⟩)⟩
    · simp only
      omega
    · exact ⟨_, c', hr, rfl, hread⟩
  | case4 c₁ buf c' hread =>
    refine ⟨Nat.le_of_lt hlt, iff_of_false ?_ (Nat.ne_of_lt hlt), .inr (.inl ⟨buf, ?_, hlt⟩)⟩
    · simp [readMsgResult, if_neg (Nat.ne_of_lt hlt)]
    · exact ⟨_, c', hr, rfl, hread⟩
  | case5 c₁ buf bs c' hread hne hlen ih =>
    exact ih hlen (.step hr trivial ⟨hread, hne, rfl, hlen⟩)
  | case6 c₁ buf bs c' hread hne hlen =>
    have hle : bs.length ≤ len - buf.length := read_bytes_le hread
    have hfull : (buf ++ bs).length = len := by
      rw [List.length_append] at hlen ⊢
      omega
    have hzero : (buf ++ bs).length ≠ 0 := by omega
    refine ⟨Nat.le_of_eq hfull, iff_of_true ?_ hfull, .inl hfull⟩
    simp only [readMsgResult, if_neg hzero, if_pos hfull]

/-- **The comment of `read_msg`** is right for every length but 0. -/
theorem readsAsDocumented_iff (len : Nat) (c : Conn) : ReadsAsDocumented len c ↔ 0 < len := by
  obtain ⟨⟨bytes, hbuf, hstream⟩, hres⟩ := readMsgLoop_stored len c []
  rw [List.nil_append] at hbuf
  subst hbuf
  constructor
  · intro h
    by_contra hlen
    have hzero : len = 0 := by omega
    have hnil : (readMsg c len).buf.length = len := by
      have := h.bounded
      omega
    exact hlen (hres (Int.le_of_eq (h.success.mpr hnil).symm)).2
  · intro hlen
    obtain ⟨hle, hsuccess, houtcome⟩ := readMsgLoop_outcome hlen (.init (T := readLoop len c) rfl)
    refine ⟨hsuccess, fun hzero => ?_, fun _ h hlt => readMsg_ended h hlt,
      fun _ _ h => readMsg_failed h, houtcome, hstream, hle⟩
    have hfull := hsuccess.mp hzero
    rw [hstream]
    exact (List.take_left' hfull).symm

end

/-- A call for no bytes reads nothing, as it should, and returns -1. -/
theorem not_readsAsDocumented : ¬∀ len c, len ≤ 65535 → ReadsAsDocumented len c := by
  intro h
  have hdoc := h 0 ⟨[0x41], true, []⟩ (by decide)
  have hnil : (readMsg ⟨[0x41], true, []⟩ 0).buf.length = 0 := Nat.le_zero.mp hdoc.bounded
  have hpos := (readMsg_success (Int.le_of_eq (hdoc.success.mpr hnil).symm)).2.1
  exact absurd hpos (by decide)

end WireStorm
