import WireStorm.Ctmp.Accept

/-!
# The source loop

The loop of `run_src_server` on one source connection: parse messages while the
connection is alive and enqueue those that the parser returns. Without read
errors the loop reads the whole stream and what it enqueues is a function of the
bytes (`srcLoop_spec`, `walk`), whatever the sizes of the reads.
-/

namespace WireStorm

/-- A message handed to the queue; `start` is the number of bytes of the
connection read before the call that returned it. -/
structure Enqueued where
  start : Nat
  msg : CtmpMsg
  deriving DecidableEq, Repr

/-- `if (current_msg) { ... TAILQ_INSERT_TAIL ... }` -/
def enqueue (start : Nat) (current : Option CtmpMsg) (later : List Enqueued) : List Enqueued :=
  match current with
  | some msg => ⟨start, msg⟩ :: later
  | none => later

/-! ## Progress -/

theorem ctmpParse_measure (mode : Mode) (host : Endian) {c : Conn} (hc : c.isAlive = true) :
    (ctmpParse mode host c).conn.measure < c.measure := by
  have hh : (readCtmpHeader c).conn.measure < c.measure :=
    (readMsg_measure c headerLength).2 (by decide) hc
  exact ctmpParse_leaves (P := fun c' => c'.measure < c.measure) mode host hh
    fun len => Nat.lt_of_le_of_lt (readMsg_measure _ _).1 hh

/-! ## The loop -/

/-- The loop of `run_src_server`: the messages enqueued and the connection left. -/
def srcLoop (mode : Mode) (host : Endian) (pos : Nat) (c : Conn) : List Enqueued × Conn :=
  if _h : c.isAlive = true then
    let p := ctmpParse mode host c
    let later := srcLoop mode host (pos + (c.stream.length - p.conn.stream.length)) p.conn
    (enqueue pos p.msg later.1, later.2)
  else
    ([], c)
termination_by c.measure
decreasing_by exact ctmpParse_measure mode host _h

/-- The messages enqueued for the bytes ahead. -/
def walk (mode : Mode) (host : Endian) (pos : Nat) (s : List UInt8) : List Enqueued :=
  if _h : s = [] then
    []
  else
    enqueue pos (decode mode host s)
      (walk mode host (pos + min (wanted host s) s.length) (s.drop (wanted host s)))
termination_by s.length
decreasing_by
  have hpos := List.length_pos_of_ne_nil _h
  have hw := headerLength_le_wanted host s
  simp only [headerLength] at hw
  rw [List.length_drop]
  omega

@[simp] theorem walk_nil (mode : Mode) (host : Endian) (pos : Nat) :
    walk mode host pos [] = [] := by
  rw [walk, dif_pos rfl]

theorem decode_short {mode : Mode} {host : Endian} {s : List UInt8}
    (h : s.length < wanted host s) : decode mode host s = none := by
  cases hd : decode mode host s with
  | none => rfl
  | some m =>
    obtain ⟨⟨rest, rfl⟩, hmagic, hlen, -, -⟩ := decode_eq_some_iff.mp hd
    have himage := m.length_image
    rw [wanted, headerAt_image, if_pos, ← hlen, List.length_append] at h
    · omega
    · rw [List.length_append]
      exact ⟨by omega, beq_iff_eq.mpr hmagic⟩

/-- **The source loop without read errors** ends at the end of the stream and
enqueues what the bytes say. -/
theorem srcLoop_spec (mode : Mode) (host : Endian) (pos : Nat) {c : Conn} (hc : c.NoError) :
    (srcLoop mode host pos c).1 = walk mode host pos c.stream ∧
      (srcLoop mode host pos c).2.stream = [] ∧ (srcLoop mode host pos c).2.isAlive = false := by
  fun_induction srcLoop mode host pos c with
  | case1 pos c h p later ih =>
    obtain ⟨hmsg, hd⟩ := parse_spec mode host hc
    obtain ⟨hwalk, hend⟩ := ih hd.noError
    refine ⟨?_, hend⟩
    rw [hwalk, hmsg, hd.stream, List.length_drop]
    by_cases hs : c.stream = []
    · have hnone : decode mode host c.stream = none := by
        apply decode_short
        have := headerLength_le_wanted host c.stream
        simp only [headerLength] at this
        rw [hs, List.length_nil] at *
        omega
      rw [hnone, hs, List.drop_nil, walk_nil, walk_nil]
      rfl
    · have hmin : c.stream.length - (c.stream.length - wanted host c.stream) =
          min (wanted host c.stream) c.stream.length := by omega
      rw [hmin]
      conv_rhs => rw [walk, dif_neg hs]
  | case2 pos c h =>
    have hs : c.stream = [] := by
      simp only [Conn.isAlive, Bool.or_eq_true, Bool.not_eq_true', List.isEmpty_eq_false_iff] at h
      exact not_not.mp fun hne => h (.inl hne)
    exact ⟨by rw [hs, walk_nil], hs, by simpa using h⟩

/-- **The source side depends on the bytes, not on how they arrive**: the loop
reads every byte and enqueues what it would enqueue if every read returned all
it can, whether or not the peer has closed by the time the last byte is read. -/
theorem srcLoop_schedule (mode : Mode) (host : Endian) {c : Conn} (hc : c.NoError)
    (peerOpen : Bool) :
    (srcLoop mode host 0 c).2.stream = [] ∧ (srcLoop mode host 0 c).2.isAlive = false ∧
      (srcLoop mode host 0 c).1 = (srcLoop mode host 0 ⟨c.stream, peerOpen, []⟩).1 := by
  obtain ⟨hwalk, hend⟩ := srcLoop_spec mode host 0 hc
  obtain ⟨hfull, -⟩ := srcLoop_spec mode host 0 (c := ⟨c.stream, peerOpen, []⟩) fun e => by simp
  exact ⟨hend.1, hend.2, by rw [hwalk, hfull]⟩

theorem srcLoop_schedule_cut :
    let c : Conn := ⟨[0xcc, 0, 0, 1, 0, 0, 0, 0, 0x41, 0xcc], true, [.eintr, .bytes 1, .bytes 5]⟩
    (srcLoop .base .little 0 c).2.stream = [] ∧ (srcLoop .base .little 0 c).2.isAlive = false ∧
      (srcLoop .base .little 0 c).1 = (srcLoop .base .little 0 ⟨c.stream, true, []⟩).1 :=
  srcLoop_schedule .base .little (fun e => by simp) true

/-! ## Walking over frames -/

/-- The parser asks for exactly the bytes of a frame ahead. -/
theorem wanted_image {host : Endian} {m : CtmpMsg} (hmagic : m.header.byte 0 = magic)
    (hlen : m.len = setMsgLength host m.header) (rest : List UInt8) :
    wanted host (m.image ++ rest) = m.image.length := by
  have himage := m.length_image
  rw [wanted, headerAt_image, if_pos, himage, hlen]
  rw [List.length_append]
  exact ⟨by omega, beq_iff_eq.mpr hmagic⟩

/-- What a parser returns on a frame does not depend on what follows it. -/
theorem decode_image_append {mode : Mode} {host : Endian} {m : CtmpMsg}
    (hlen : m.len = setMsgLength host m.header) (rest : List UInt8) :
    decode mode host (m.image ++ rest) = decode mode host m.image := by
  have himage := m.length_image
  have hm := messageAt_image hlen rest
  have hm' := messageAt_image hlen []
  rw [List.append_nil] at hm'
  simp only [decode, hm, hm', headerAt_image, List.length_append]
  have hh := headerAt_image m []
  rw [List.append_nil] at hh
  rw [hh]
  refine if_congr ?_ rfl rfl
  simp only [himage]
  constructor <;> rintro ⟨h1, h2, -, h4⟩ <;> exact ⟨h1, h2, by omega, h4⟩

theorem image_ne_nil (m : CtmpMsg) : m.image ≠ [] := by
  intro h
  have himage := m.length_image
  rw [h, List.length_nil, headerLength] at himage
  omega

/-- One frame of the walk. -/
theorem walk_image {mode : Mode} {host : Endian} {m : CtmpMsg} (hmagic : m.header.byte 0 = magic)
    (hlen : m.len = setMsgLength host m.header) (pos : Nat) (rest : List UInt8) :
    walk mode host pos (m.image ++ rest) =
      enqueue pos (decode mode host m.image) (walk mode host (pos + m.image.length) rest) := by
  have hne : m.image ++ rest ≠ [] := fun h => image_ne_nil m (List.append_eq_nil_iff.mp h).1
  rw [walk, dif_neg hne, wanted_image hmagic hlen, decode_image_append hlen, List.length_append,
    Nat.min_eq_left (Nat.le_add_right _ _), List.drop_left]

theorem enqueue_map (pos : Nat) (current : Option CtmpMsg) (later : List Enqueued) :
    (enqueue pos current later).map (·.msg) = current.toList ++ later.map (·.msg) := by
  cases current <;> rfl

theorem Framed.len_eq {m : CtmpMsg} (hm : Framed m) : m.len = setMsgLength .little m.header :=
  len_eq_setMsgLength_iff.mpr hm.2

/-- The walk over a sequence of frames returns what each frame gives alone. -/
theorem walk_frames {mode : Mode} {ms : List CtmpMsg} (hms : ∀ m ∈ ms, Framed m) (pos : Nat) :
    (walk mode .little pos (ms.flatMap CtmpMsg.image)).map (·.msg) =
      ms.filterMap fun m => decode mode .little m.image := by
  induction ms generalizing pos with
  | nil => simp
  | cons m ms ih =>
    have hm := hms m List.mem_cons_self
    rw [List.flatMap_cons, walk_image hm.1 hm.len_eq, enqueue_map,
      ih fun m' h => hms m' (List.mem_cons_of_mem m h), List.filterMap_cons]
    cases decode mode .little m.image <;> rfl

/-- **A dropped message does not disturb its neighbours**: on a sequence of frames
the loop enqueues the messages that the parser returns for each frame alone. -/
theorem srcLoop_frames (mode : Mode) {ms : List CtmpMsg} (hms : ∀ m ∈ ms, Framed m) {c : Conn}
    (hc : c.NoError) (hs : c.stream = ms.flatMap CtmpMsg.image) (alone : CtmpMsg → Conn)
    (halone : ∀ m ∈ ms, (alone m).stream = m.image ∧ (alone m).NoError) :
    (srcLoop mode .little 0 c).1.map (·.msg) =
      ms.filterMap fun m => (ctmpParse mode .little (alone m)).msg := by
  rw [(srcLoop_spec mode .little 0 hc).1, hs, walk_frames hms]
  refine List.filterMap_congr fun m hm => ?_
  rw [(parse_spec mode .little (halone m hm).2).1, (halone m hm).1]

theorem srcLoop_frames_dropped :
    let m₁ : CtmpMsg := ⟨⟨[0xcc, 0, 0, 1, 0, 0, 0, 0], rfl⟩, 1, [0x41], rfl⟩
    let m₂ : CtmpMsg := ⟨⟨[0xcc, 7, 0, 2, 0, 0, 0, 0], rfl⟩, 2, [0xcc, 0xcc], rfl⟩
    (srcLoop .extended .little 0
        ⟨[m₁, m₂, m₁].flatMap CtmpMsg.image, true, [.bytes 3, .eintr]⟩).1.map (·.msg) =
      [m₁, m₂, m₁].filterMap fun m =>
        (ctmpParse .extended .little ⟨m.image, false, [.eintr]⟩).msg := by
  intro m₁ m₂
  have hms : ∀ m ∈ [m₁, m₂, m₁], Framed m := by decide
  exact srcLoop_frames .extended hms (fun e => by simp) rfl
    (fun m => ⟨m.image, false, [.eintr]⟩) fun m _ => ⟨rfl, fun e => by simp⟩

/-! ## A message with a wrong magic byte -/

/-- The parser returns the frame when it is read alone. -/
def Accepted (mode : Mode) (m : CtmpMsg) : Prop :=
  (ctmpParse mode .little ⟨m.image, false, []⟩).msg = some m

/-- The parser drops the frame when it is read alone. -/
def Refused (mode : Mode) (m : CtmpMsg) : Prop :=
  (ctmpParse mode .little ⟨m.image, false, []⟩).msg = none

/-- Bytes that the parser drops block by block: headers without the magic byte
and whole frames that it refuses. -/
inductive Skipped (mode : Mode) : List UInt8 → Prop
  | nil : Skipped mode []
  | junk {block rest : List UInt8} (hlen : block.length = headerLength)
      (hmagic : block.head? ≠ some magic) (h : Skipped mode rest) : Skipped mode (block ++ rest)
  | frame {m : CtmpMsg} {rest : List UInt8} (hm : Framed m) (hno : Refused mode m)
      (h : Skipped mode rest) : Skipped mode (m.image ++ rest)

/-- Less than the parser asks for. -/
def Incomplete (s : List UInt8) : Prop := s.length < wanted .little s

/-- The message `b` is dropped as a whole: the messages enqueued are `gs`, and
none of them is made of bytes of `b`. -/
structure DroppedWhole (mode : Mode) (b : CtmpMsg) (gs : List CtmpMsg) (c : Conn) : Prop where
  msgs : (srcLoop mode .little 0 c).1.map (·.msg) = gs
  start : ∀ e ∈ (srcLoop mode .little 0 c).1, b.image.length ≤ e.start

theorem decode_alone (mode : Mode) (m : CtmpMsg) :
    (ctmpParse mode .little ⟨m.image, false, []⟩).msg = decode mode .little m.image :=
  (parse_spec mode .little fun e => by simp).1

theorem headerAt_byte_zero (x : UInt8) (s : List UInt8) : (headerAt (x :: s)).byte 0 = x := by
  simp [headerAt, Header.ofBuffer, Header.byte, buffer, headerLength]

theorem wanted_append {host : Endian} {s : List UInt8} (hs : headerLength ≤ s.length)
    (rest : List UInt8) : wanted host (s ++ rest) = wanted host s := by
  have hh : headerAt (s ++ rest) = headerAt s := by
    rw [headerAt, headerAt, List.take_append_of_le_length hs]
  rw [wanted, wanted, hh, List.length_append]
  refine if_congr (and_congr_left fun _ => ?_) rfl rfl
  exact ⟨fun _ => hs, fun _ => by omega⟩

/-- The messages of a walk are made of different bytes. -/
theorem walk_size (mode : Mode) (host : Endian) (pos : Nat) (s : List UInt8) :
    ((walk mode host pos s).map fun e => e.msg.image.length).sum ≤ s.length := by
  fun_induction walk mode host pos s with
  | case1 pos => simp
  | case2 pos s h ih =>
    rw [List.length_drop] at ih
    cases hd : decode mode host s with
    | none => exact Nat.le_trans ih (Nat.sub_le _ _)
    | some m =>
      obtain ⟨⟨rest, rfl⟩, hmagic, hlen, -, -⟩ := decode_eq_some_iff.mp hd
      rw [wanted_image hmagic hlen] at ih ⊢
      simp only [enqueue, List.map_cons, List.sum_cons]
      have : (m.image ++ rest).length = m.image.length + rest.length := List.length_append
      omega

theorem walk_start (mode : Mode) (host : Endian) (pos : Nat) (s : List UInt8) :
    ∀ e ∈ walk mode host pos s, pos ≤ e.start := by
  fun_induction walk mode host pos s with
  | case1 pos => simp
  | case2 pos s h ih =>
    have hlater : ∀ e ∈ walk mode host (pos + min (wanted host s) s.length)
        (s.drop (wanted host s)), pos ≤ e.start :=
      fun e he => Nat.le_trans (Nat.le_add_right _ _) (ih e he)
    cases decode mode host s with
    | none => exact hlater
    | some m =>
      intro e he
      rcases List.mem_cons.mp he with rfl | he
      · exact Nat.le_refl _
      · exact hlater e he

theorem validMagic_eq_false {s : List UInt8} (h : s.head? ≠ some magic) :
    validMagic (headerAt s) = false := by
  cases s with
  | nil => decide
  | cons x s =>
    rw [validMagic, headerAt_byte_zero, beq_eq_false_iff_ne]
    exact fun e => h (congrArg some e)

/-- One header without the magic byte: the walk goes on behind it. -/
theorem walk_junk {mode : Mode} {block : List UInt8} (hlen : block.length = headerLength)
    (hmagic : block.head? ≠ some magic) (pos : Nat) (rest : List UInt8) :
    walk mode .little pos (block ++ rest) = walk mode .little (pos + block.length) rest := by
  have hne : block ++ rest ≠ [] := by
    intro h
    rw [(List.append_eq_nil_iff.mp h).1, List.length_nil, headerLength] at hlen
    omega
  have hhead : (block ++ rest).head? ≠ some magic := by
    cases block with
    | nil => simp [headerLength] at hlen
    | cons x xs => exact hmagic
  have hno := validMagic_eq_false hhead
  have hdec : decode mode .little (block ++ rest) = none := by
    simp only [decode, hno, Bool.false_eq_true, false_and, if_false]
  have hw : wanted .little (block ++ rest) = block.length := by
    rw [wanted, hno, hlen]
    simp
  rw [walk, dif_neg hne, hdec, hw, List.length_append, Nat.min_eq_left (Nat.le_add_right _ _),
    List.drop_left]
  rfl

theorem walk_skipped {mode : Mode} {q : List UInt8} (hq : Skipped mode q) (pos : Nat)
    (rest : List UInt8) :
    walk mode .little pos (q ++ rest) = walk mode .little (pos + q.length) rest := by
  induction hq generalizing pos with
  | nil => simp
  | junk hlen hmagic _ ih =>
    rw [List.append_assoc, walk_junk hlen hmagic, ih, List.length_append, Nat.add_assoc]
  | frame hm hno _ ih =>
    rw [Refused, decode_alone] at hno
    rw [List.append_assoc, walk_image hm.1 hm.len_eq, hno, enqueue, ih, List.length_append,
      Nat.add_assoc]

theorem walk_incomplete {mode : Mode} {t : List UInt8} (ht : Incomplete t) (pos : Nat) :
    walk mode .little pos t = [] := by
  by_cases h : t = []
  · rw [h, walk_nil]
  · rw [walk, dif_neg h, decode_short ht, List.drop_of_length_le (Nat.le_of_lt ht), walk_nil]
    rfl

/-- A walk that starts inside a message cannot return all of the messages from there on. -/
theorem walk_overshoot {mode : Mode} {gs : List CtmpMsg} {s : List UInt8} {pos : Nat}
    (hlt : s.length < (gs.flatMap CtmpMsg.image).length) :
    (walk mode .little pos s).map (·.msg) ≠ gs := by
  intro h
  have hsize := walk_size mode .little pos s
  have himages : ((walk mode .little pos s).map fun e => e.msg.image.length) =
      gs.map fun g => g.image.length := by
    rw [← h, List.map_map]
    rfl
  rw [himages] at hsize
  rw [List.length_flatMap] at hlt
  omega

theorem filterMap_accepted {mode : Mode} {gs : List CtmpMsg} (hgs : ∀ g ∈ gs, Accepted mode g) :
    (gs.filterMap fun g => decode mode .little g.image) = gs := by
  induction gs with
  | nil => rfl
  | cons g gs ih =>
    have hg := hgs g List.mem_cons_self
    rw [Accepted, decode_alone] at hg
    rw [List.filterMap_cons, hg, ih fun g' h => hgs g' (List.mem_cons_of_mem g h)]

/-- The first block of a payload that the walk drops is of one of the two kinds. -/
theorem skipped_block {mode : Mode} {p rest : List UInt8}
    (hw : wanted .little (p ++ rest) ≤ p.length)
    (hdec : decode mode .little (p ++ rest) = none) {q : List UInt8} (hq : Skipped mode q) :
    Skipped mode (p.take (wanted .little (p ++ rest)) ++ q) := by
  have h8 := Nat.le_trans (headerLength_le_wanted _ _) hw
  rw [wanted_append h8] at hw ⊢
  by_cases hmagic : validMagic (headerAt p) = true
  · -- a whole frame that the parser refuses
    have hwant : wanted .little p = headerLength + (messageAt .little p).len.toNat :=
      if_pos ⟨h8, hmagic⟩
    have hpre : (messageAt .little p).image <+: p := messageAt_starts (by omega)
    have hfr : Framed (messageAt .little p) :=
      ⟨eq_of_beq hmagic, len_eq_setMsgLength_iff.mp rfl⟩
    have htake : p.take (wanted .little p) = (messageAt .little p).image := by
      rw [hwant, ← CtmpMsg.length_image]
      exact (List.prefix_iff_eq_take.mp hpre).symm
    have hno : Refused mode (messageAt .little p) := by
      obtain ⟨rest', hp⟩ := hpre
      rw [← hp, List.append_assoc, decode_image_append hfr.len_eq] at hdec
      rw [Refused, decode_alone]
      exact hdec
    rw [htake]
    exact .frame hfr hno hq
  · -- a header without the magic byte
    have hwant : wanted .little p = headerLength := if_neg fun h => hmagic h.2
    rw [hwant]
    refine .junk (List.length_take_of_le h8) ?_ hq
    rw [List.head?_take, if_neg (by decide)]
    cases p with
    | nil => simp
    | cons x xs =>
      rw [validMagic, headerAt_byte_zero, beq_iff_eq] at hmagic
      exact fun e => hmagic (Option.some.inj e)

/-- The blocks that the walk takes from a payload `p` followed by accepted frames:
it returns just the frames when every block of `p` is dropped and the last one
ends with `p`, or nothing follows `p`. -/
theorem walk_payload_iff {mode : Mode} {gs : List CtmpMsg}
    (hgs : ∀ g ∈ gs, Framed g ∧ Accepted mode g) (pos : Nat) (p : List UInt8) :
    ((walk mode .little pos (p ++ gs.flatMap CtmpMsg.image)).map (·.msg) = gs ∧
        ∀ e ∈ walk mode .little pos (p ++ gs.flatMap CtmpMsg.image), pos + p.length ≤ e.start) ↔
      ∃ q t, p = q ++ t ∧ Skipped mode q ∧ (t = [] ∨ gs = [] ∧ Incomplete t) := by
  constructor
  · rintro ⟨hmsgs, hstart⟩
    induction hn : p.length using Nat.strongRecOn generalizing p pos with
    | _ n ih =>
      by_cases hp : p = []
      · exact ⟨[], [], hp, .nil, .inl rfl⟩
      have hpos := List.length_pos_of_ne_nil hp
      have hne : p ++ gs.flatMap CtmpMsg.image ≠ [] := fun h => hp (List.append_eq_nil_iff.mp h).1
      rw [walk, dif_neg hne] at hmsgs hstart
      -- no message starts in `p`
      have hdec : decode mode .little (p ++ gs.flatMap CtmpMsg.image) = none := by
        cases hd : decode mode .little (p ++ gs.flatMap CtmpMsg.image) with
        | none => rfl
        | some m =>
          rw [hd] at hstart
          have := hstart ⟨pos, m⟩ List.mem_cons_self
          simp only at this
          omega
      rw [hdec] at hmsgs hstart
      simp only [enqueue] at hmsgs hstart
      by_cases hw : wanted .little (p ++ gs.flatMap CtmpMsg.image) ≤ p.length
      · have h8 := headerLength_le_wanted .little (p ++ gs.flatMap CtmpMsg.image)
        simp only [headerLength] at h8
        rw [List.drop_append_of_le_length hw, Nat.min_eq_left (by
          rw [List.length_append]; omega)] at hmsgs hstart
        obtain ⟨q, t, hqt, hq, ht⟩ := ih _ (by rw [List.length_drop]; omega) _ _ hmsgs (by
          intro e he
          have := hstart e he
          rw [List.length_drop]
          omega) rfl
        refine ⟨_ ++ q, t, ?_, skipped_block hw hdec hq, ht⟩
        rw [List.append_assoc, ← hqt, List.take_append_drop]
      · by_cases hgs0 : gs = []
        · subst hgs0
          rw [List.flatMap_nil, List.append_nil] at hw
          exact ⟨[], p, rfl, .nil, .inr ⟨rfl, Nat.lt_of_not_le hw⟩⟩
        · -- the block reaches into the frames behind `p`
          refine absurd hmsgs (walk_overshoot ?_)
          have hG : 0 < (gs.flatMap CtmpMsg.image).length := by
            cases gs with
            | nil => exact absurd rfl hgs0
            | cons g gs =>
              have := List.length_pos_of_ne_nil (image_ne_nil g)
              rw [List.flatMap_cons, List.length_append]
              omega
          rw [List.length_drop, List.length_append]
          omega
  · rintro ⟨q, t, rfl, hq, ht⟩
    rw [List.append_assoc, walk_skipped hq, List.length_append]
    rcases ht with rfl | ⟨rfl, ht⟩
    · rw [List.nil_append, walk_frames (fun g hg => (hgs g hg).1),
        filterMap_accepted fun g hg => (hgs g hg).2]
      exact ⟨rfl, fun e he => by simpa using walk_start _ _ _ _ e he⟩
    · rw [List.flatMap_nil, List.append_nil, walk_incomplete ht]
      exact ⟨rfl, by simp⟩

/-- A header without the magic byte is all that the parser reads of its message. -/
theorem srcLoop_junk (mode : Mode) {b : CtmpMsg} (hb : b.header.byte 0 ≠ magic) {c : Conn}
    (hc : c.NoError) {rest : List UInt8} (hs : c.stream = b.image ++ rest) :
    (srcLoop mode .little 0 c).1 =
      walk mode .little b.header.bytes.length (b.data ++ rest) := by
  have hhead : b.header.bytes.head? ≠ some magic := by
    cases hbytes : b.header.bytes with
    | nil => simp
    | cons x xs =>
      rw [Header.byte, hbytes] at hb
      exact fun e => hb (Option.some.inj e)
  rw [(srcLoop_spec mode .little 0 hc).1, hs, CtmpMsg.image, List.append_assoc,
    walk_junk b.header.length_eq hhead, Nat.zero_add]

/-- **A message with a wrong magic byte** is dropped as a whole exactly when its
payload happens to be made of blocks that the parser drops. -/
theorem droppedWhole_iff {mode : Mode} {b : CtmpMsg} (hb : b.header.byte 0 ≠ magic)
    {gs : List CtmpMsg} (hgs : ∀ g ∈ gs, Framed g ∧ Accepted mode g) {c : Conn} (hc : c.NoError)
    (hs : c.stream = b.image ++ gs.flatMap CtmpMsg.image) :
    DroppedWhole mode b gs c ↔
      ∃ q t, b.data = q ++ t ∧ Skipped mode q ∧ (t = [] ∨ gs = [] ∧ Incomplete t) := by
  have hwalk := srcLoop_junk mode hb hc hs
  rw [← walk_payload_iff hgs b.header.bytes.length b.data]
  constructor
  · rintro ⟨hmsgs, hstart⟩
    rw [hwalk] at hmsgs hstart
    rw [CtmpMsg.image, List.length_append] at hstart
    exact ⟨hmsgs, hstart⟩
  · rintro ⟨hmsgs, hstart⟩
    refine ⟨by rw [hwalk]; exact hmsgs, ?_⟩
    rw [hwalk, CtmpMsg.image, List.length_append]
    exact hstart

/-- An 8-byte payload that does not start with the magic byte is dropped with its header. -/
theorem droppedWhole_text :
    let g : CtmpMsg := ⟨⟨[0xcc, 0, 0, 1, 0, 0, 0, 0], rfl⟩, 1, [0x41], rfl⟩
    let b : CtmpMsg := ⟨⟨[0xca, 0, 0, 8, 0, 0, 0, 0], rfl⟩, 8, List.replicate 8 0x41, rfl⟩
    DroppedWhole .base b [g] ⟨b.image ++ g.image, true, [.bytes 2, .eintr]⟩ := by
  intro g b
  have hg : Accepted .base g := by
    rw [Accepted, decode_alone]
    decide
  refine (droppedWhole_iff (by decide) ?_ (fun e => by simp) rfl).mpr ?_
  · intro g' hg'
    rw [List.mem_singleton.mp hg']
    exact ⟨by decide, hg⟩
  · have hhead : b.data.head? ≠ some magic := by decide
    exact ⟨b.data ++ [], [], rfl, .junk rfl hhead .nil, .inl rfl⟩

/-- A message carried in the payload of a message with a wrong magic byte is enqueued. -/
theorem not_droppedWhole :
    let g : CtmpMsg := ⟨⟨[0xcc, 0, 0, 1, 0, 0, 0, 0], rfl⟩, 1, [0x41], rfl⟩
    let b : CtmpMsg := ⟨⟨[0xca, 0, 0, 9, 0, 0, 0, 0], rfl⟩, 9, g.image, rfl⟩
    b.header.byte 0 ≠ magic ∧ b.header.payloadLength = b.data.length ∧ Framed g ∧
      Accepted .base g ∧ ¬DroppedWhole .base b [g] ⟨b.image ++ g.image, true, []⟩ := by
  intro g b
  have hb : b.header.byte 0 ≠ magic := by decide
  have hg : Framed g := by decide
  have hdec : decode .base .little g.image = some g := by decide
  refine ⟨hb, by decide, hg, by rw [Accepted, decode_alone]; exact hdec, ?_⟩
  rintro ⟨hmsgs, -⟩
  have hgg : b.data ++ g.image = [g, g].flatMap CtmpMsg.image := rfl
  rw [srcLoop_junk .base hb (fun e => by simp) rfl, hgg,
    walk_frames fun m hm => by simp only [List.mem_cons, List.not_mem_nil, or_false, or_self] at hm
                               exact hm ▸ hg] at hmsgs
  simp only [List.filterMap_cons, hdec, List.filterMap_nil] at hmsgs
  exact absurd (congrArg List.length hmsgs) (by decide)

end WireStorm
