import WireStorm.Intake

/-!
# Reading what the server sent

A receiver that reads its connection as the server reads a source, in the mode of the
server or as the base protocol, gets back messages that the sources sent, in their order,
and all the bytes that it was sent are theirs but for a part of one message at the end
(`relayed`). So servers can be chained: the receiver may be the source thread of another
server.
-/

namespace WireStorm

open Framing (IsPart exists_frames_of_prefix)

/-! ## The walk over accepted messages -/

section
variable {mode : Mode} {host : Endian} {m : CtmpMsg} {ms : List CtmpMsg} {part : List UInt8}

/-- A message of one mode is a message of the base protocol. -/
theorem decode_base (h : decode mode host m.image = some m) :
    decode .base host m.image = some m := by
  obtain ⟨hpre, hmagic, hlen, hpos, -⟩ := decode_eq_some_iff.mp h
  exact decode_eq_some_iff.mpr ⟨hpre, hmagic, hlen, hpos, trivial⟩

/-- The walk returns messages that the parser accepts, and goes on behind them. -/
theorem walk_accepted (hms : ∀ m ∈ ms, decode mode host m.image = some m) (pos : Nat)
    (rest : List UInt8) :
    ∃ pos', (walk mode host pos (ms.flatMap CtmpMsg.image ++ rest)).map (·.msg) =
      ms ++ (walk mode host pos' rest).map (·.msg) := by
  induction ms generalizing pos with
  | nil => exact ⟨pos, rfl⟩
  | cons m ms ih =>
    have hm := hms m List.mem_cons_self
    obtain ⟨-, hmagic, hlen, -⟩ := decode_eq_some_iff.mp hm
    obtain ⟨pos', hrest⟩ := ih (fun m' h => hms m' (List.mem_cons_of_mem m h))
      (pos + m.image.length)
    refine ⟨pos', ?_⟩
    rw [List.flatMap_cons, List.append_assoc, walk_image hmagic hlen, enqueue_map, hm, hrest]
    rfl

/-- Less than one accepted message is no message. -/
theorem walk_part (hm : decode mode host m.image = some m) (hpart : part <+: m.image)
    (hlt : part.length < m.image.length) (pos : Nat) : walk mode host pos part = [] := by
  obtain ⟨-, hmagic, hlen, -⟩ := decode_eq_some_iff.mp hm
  have hshort : part.length < wanted host part := by
    by_cases h8 : headerLength ≤ part.length
    · obtain ⟨rest, himage⟩ := hpart
      have hwanted := wanted_image hmagic hlen []
      rw [List.append_nil] at hwanted
      rwa [← wanted_append h8 rest, himage, hwanted]
    · exact Nat.lt_of_lt_of_le (Nat.lt_of_not_le h8) (headerLength_le_wanted host part)
  by_cases hnil : part = []
  · rw [hnil, walk_nil]
  · rw [walk, dif_neg hnil, decode_short hshort, List.drop_of_length_le (Nat.le_of_lt hshort),
      walk_nil]
    rfl

/-- **The frames are found again**: from whole messages and a part of the next one, the loop
takes the whole messages. -/
theorem messagesOf_frames {rest : List CtmpMsg} {c : Conn} (hc : c.NoError)
    (hs : c.stream = ms.flatMap CtmpMsg.image ++ part) (hpart : IsPart CtmpMsg.image rest part)
    (haccepted : ∀ m ∈ ms ++ rest, decode mode host m.image = some m) :
    messagesOf mode host c = ms := by
  obtain ⟨pos, hwalk⟩ := walk_accepted (fun m hm => haccepted m (List.mem_append_left _ hm)) 0 part
  rw [messagesOf, (srcLoop_spec mode host 0 hc).1, hs, hwalk]
  rcases hpart with rfl | ⟨m, hm, hpre, hlt⟩
  · rw [walk_nil, List.map_nil, List.append_nil]
  · have hm' := haccepted m (List.mem_append_right _ (List.mem_of_mem_head? hm))
    rw [walk_part hm' hpre hlt, List.map_nil, List.append_nil]

/-- The loop takes only messages that the parser accepts on their own. -/
theorem messagesOf_accepted (mode : Mode) (host : Endian) (c : Conn) :
    ∀ m ∈ messagesOf mode host c, decode mode host m.image = some m := by
  rw [← srcLoop_msgs 0]
  fun_induction srcLoop mode host 0 c with
  | case1 pos c halive p later ih =>
    intro m hm
    rw [enqueue_map] at hm
    rcases List.mem_append.mp hm with hm | hm
    · obtain ⟨-, hm⟩ := parse_some (Option.mem_toList.mp hm)
      exact decode_eq_some_iff.mpr ⟨List.prefix_rfl, hm⟩
    · exact ih m hm
  | case2 pos c hdead =>
    intro m hm
    cases hm

end

/-! ## The receiver as a source -/

section
variable {args : Args} {mode mode' : Mode} {host : Endian} {start : Timespec} {f : Intake}

end

end WireStorm
