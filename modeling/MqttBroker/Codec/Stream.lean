-- Packets out of a stream (`Packet::decode`): how the bytes are cut on their way
-- does not change the packets that come out, nor the error that ends them.
import MqttBroker.Codec.Packet

namespace mqtt_codec

/-! ## The variable byte integer of a header -/

namespace varint

variable {bytes : Bytes} {i acc multiplier : Nat} {p : Nat × Nat}

theorem decode_loop_append {more : Bytes} (h : decode_loop bytes i acc multiplier = some p) :
    decode_loop (bytes ++ more) i acc multiplier = some p := by
  induction bytes generalizing i acc multiplier with
  | nil => cases h
  | cons byte rest ih =>
    rw [List.cons_append, decode_loop_cons]
    rw [decode_loop_cons] at h
    split
    · rw [if_pos ‹_›] at h
      exact h
    · rw [if_neg ‹_›] at h
      exact ih h

variable {v n k : Nat}

theorem decode_loop_take (h : decode_loop bytes i acc multiplier = some (v, n)) (hk : i + k < n) :
    decode_loop (bytes.take k) i acc multiplier = none := by
  induction bytes generalizing i acc multiplier k with
  | nil => cases h
  | cons byte rest ih =>
    cases k with
    | zero => rfl
    | succ k =>
      rw [decode_loop_cons] at h
      rw [List.take_succ_cons, decode_loop_cons]
      split
      · rw [if_pos ‹_›] at h
        cases h
        omega
      · rw [if_neg ‹_›] at h
        exact ih h (by omega)

theorem decode_loop_of_take (h : decode_loop bytes i acc multiplier = some (v, n))
    (hk : n ≤ i + k) : decode_loop (bytes.take k) i acc multiplier = some (v, n) := by
  induction bytes generalizing i acc multiplier k with
  | nil => cases h
  | cons byte rest ih =>
    have hlt := (decode_loop_bounds h).1
    cases k with
    | zero => omega
    | succ k =>
      rw [decode_loop_cons] at h
      rw [List.take_succ_cons, decode_loop_cons]
      split
      · rw [if_pos ‹_›] at h
        exact h
      · rw [if_neg ‹_›] at h
        exact ih h (by omega)

variable {buf : Bytes}

theorem decode_append (h : decode buf = .ok p) (more : Bytes) : decode (buf ++ more) = .ok p := by
  unfold decode at h ⊢
  split at h
  · rename_i q hq
    cases h
    rw [List.take_append, decode_loop_append hq]
  · split at h <;> cases h

theorem decode_append_malformed {e : CodecError} (h : decode buf = .error e)
    (he : e ≠ .Incomplete) (more : Bytes) : decode (buf ++ more) = .error e := by
  unfold decode at h ⊢
  split at h
  · cases h
  · rename_i hnone
    split at h
    · cases h
      exact absurd rfl he
    · rename_i hlen
      have htake : (buf ++ more).take 4 = buf.take 4 :=
        List.take_append_of_le_length (by omega)
      rw [htake, hnone, ← h]
      simp only [List.length_append]
      rw [if_neg (by omega)]

theorem decode_take (h : decode buf = .ok (v, n)) (hk : k < n) :
    decode (buf.take k) = .error .Incomplete := by
  unfold decode at h ⊢
  split at h
  · rename_i q hq
    cases h
    obtain ⟨-, hlen, -⟩ := decode_loop_bounds hq
    rw [List.length_take] at hlen
    have htake : (buf.take k).take 4 = (buf.take 4).take k := by
      rw [List.take_take, List.take_take, Nat.min_comm]
    rw [htake, decode_loop_take hq (by omega)]
    simp only [List.length_take]
    rw [if_pos (by omega)]
  · split at h <;> cases h

theorem decode_of_take (h : decode buf = .ok (v, n)) (hk : n ≤ k) :
    decode (buf.take k) = .ok (v, n) := by
  unfold decode at h ⊢
  split at h
  · rename_i q hq
    cases h
    rw [List.take_take, Nat.min_comm, ← List.take_take, decode_loop_of_take hq (by omega)]
  · split at h <;> cases h

end varint

/-! ## The header -/

namespace FixedHeader

variable {buf : Bytes} {header : FixedHeader} {n : Nat}

theorem decode_some (h : decode buf = .ok (some (header, n))) :
    ∃ first rest consumed, buf = first :: rest ∧
      PacketType.from_nibble (first >>> 4) = .ok header.packet_type ∧
      header.flags = first &&& 0x0F ∧
      varint.decode rest = .ok (header.remaining_len, consumed) ∧ n = 1 + consumed := by
  unfold decode at h
  split at h
  · cases h
  · rename_i first rest
    rcases ht : PacketType.from_nibble (first >>> 4) with e | t
    · rw [ht] at h
      cases h
    · rw [ht] at h
      simp only [bind, Except.bind] at h
      split at h
      · rename_i len consumed hv
        cases h
        exact ⟨first, rest, consumed, rfl, ht, rfl, hv, rfl⟩
      · cases h
      · cases h

theorem decode_cons {first : UInt8} {rest : Bytes} {t : PacketType}
    (ht : PacketType.from_nibble (first >>> 4) = .ok t) :
    decode (first :: rest) = match varint.decode rest with
      | .ok (remaining_len, consumed) =>
        .ok (some ({ packet_type := t, flags := first &&& 0x0F, remaining_len }, 1 + consumed))
      | .error .Incomplete => .ok none
      | .error e => .error e := by
  unfold decode
  dsimp only
  rw [ht]
  rfl

theorem decode_bounds (h : decode buf = .ok (some (header, n))) : 1 < n ∧ n ≤ buf.length := by
  obtain ⟨first, rest, consumed, rfl, -, -, hv, rfl⟩ := decode_some h
  obtain ⟨-, hle, hsize⟩ := varint.decode_bounds hv
  have hpos := varint.encoded_len_pos header.remaining_len
  simp only [List.length_cons]
  omega

theorem decode_append (h : decode buf = .ok (some (header, n))) (more : Bytes) :
    decode (buf ++ more) = .ok (some (header, n)) := by
  obtain ⟨first, rest, consumed, rfl, ht, hf, hv, rfl⟩ := decode_some h
  rw [List.cons_append, decode_cons ht, varint.decode_append hv more]
  simp only
  rw [← hf]

theorem decode_take {k : Nat} (h : decode buf = .ok (some (header, n))) (hk : k < n) :
    decode (buf.take k) = .ok none := by
  obtain ⟨first, rest, consumed, rfl, ht, hf, hv, rfl⟩ := decode_some h
  cases k with
  | zero => rfl
  | succ k => rw [List.take_succ_cons, decode_cons ht, varint.decode_take hv (by omega)]

theorem decode_append_error {e : CodecError} (h : decode buf = .error e) (more : Bytes) :
    decode (buf ++ more) = .error e := by
  cases buf with
  | nil => cases h
  | cons first rest =>
    rcases ht : PacketType.from_nibble (first >>> 4) with e' | t
    · simp only [decode, ht, bind, Except.bind, List.cons_append] at h ⊢
      exact h
    · rw [decode_cons ht] at h
      rw [List.cons_append, decode_cons ht]
      split at h
      · cases h
      · cases h
      · rename_i e' hne hv
        cases h
        rw [varint.decode_append_malformed hv hne]
        cases e with
        | Incomplete => exact absurd rfl hne
        | _ => rfl

end FixedHeader

/-! ## One packet -/

namespace Packet

/-- What `decode` finds: a bad header, too few bytes, or a frame whose body gives a packet
or an error. -/
theorem decode_cases (buf : Bytes) (version : ProtocolVersion) :
    (∃ e, FixedHeader.decode buf = .error e ∧ decode buf version = (.error e, buf)) ∨
    decode buf version = (.ok none, buf) ∨
    ∃ header n, FixedHeader.decode buf = .ok (some (header, n)) ∧
      n + header.remaining_len ≤ buf.length ∧
      decode buf version =
        match (decode_body header version).run
          ((buf.take (n + header.remaining_len)).drop n) with
        | .ok (packet, _) => (.ok (some packet), buf.drop (n + header.remaining_len))
        | .error e => (.error e, buf.drop (n + header.remaining_len)) := by
  unfold decode
  rcases hh : FixedHeader.decode buf with e | o
  · exact .inl ⟨e, rfl, rfl⟩
  · rcases o with _ | ⟨header, n⟩
    · exact .inr (.inl rfl)
    · dsimp only
      split
      · exact .inr (.inl rfl)
      · exact .inr (.inr ⟨header, n, rfl, by omega, rfl⟩)

variable {buf : Bytes} {version : ProtocolVersion}

theorem decode_frame_append {header : FixedHeader} {n : Nat}
    (hh : FixedHeader.decode buf = .ok (some (header, n)))
    (hlen : n + header.remaining_len ≤ buf.length) (more : Bytes) :
    decode (buf ++ more) version =
      match (decode_body header version).run ((buf.take (n + header.remaining_len)).drop n) with
      | .ok (packet, _) => (.ok (some packet), buf.drop (n + header.remaining_len) ++ more)
      | .error e => (.error e, buf.drop (n + header.remaining_len) ++ more) := by
  have hroom : ¬ (buf ++ more).length < n + header.remaining_len := by
    rw [List.length_append]
    omega
  rw [← List.take_append_of_le_length hlen, ← List.drop_append_of_le_length hlen]
  unfold decode
  rw [FixedHeader.decode_append hh more]
  exact if_neg hroom

variable {rest : Bytes}

/-- A packet that was decoded: how many bytes it took, and that no shorter piece of them
and nothing behind them matters. -/
theorem decode_packet {p : Packet} (h : decode buf version = (.ok (some p), rest)) :
    ∃ n, 0 < n ∧ n ≤ buf.length ∧ rest = buf.drop n ∧
      (∀ k < n, decode (buf.take k) version = (.ok none, buf.take k)) ∧
      ∀ more, decode (buf ++ more) version = (.ok (some p), rest ++ more) := by
  rcases decode_cases buf version with ⟨e, -, he⟩ | hnone | ⟨header, n, hh, hlen, hrun⟩
  · rw [he] at h
    cases h
  · rw [hnone] at h
    cases h
  · have hn := (FixedHeader.decode_bounds hh).1
    refine ⟨n + header.remaining_len, by omega, hlen, ?_, ?_, ?_⟩
    · rw [hrun] at h
      split at h
      · cases h
        rfl
      · cases h
    · intro k hk
      by_cases hkn : k < n
      · rw [decode, FixedHeader.decode_take hh hkn]
      · -- the header is there, the body is not
        have hheader : FixedHeader.decode (buf.take k) = .ok (some (header, n)) := by
          obtain ⟨first, tail, consumed, rfl, ht, hf, hv, rfl⟩ := FixedHeader.decode_some hh
          obtain ⟨k, rfl⟩ : ∃ j, k = j + 1 := ⟨k - 1, by omega⟩
          obtain ⟨-, hle, -⟩ := varint.decode_bounds hv
          have hvk : varint.decode (tail.take k) = .ok (header.remaining_len, consumed) :=
            varint.decode_of_take hv (by omega)
          rw [List.take_succ_cons, FixedHeader.decode_cons ht, hvk]
          simp only
          rw [← hf]
        rw [decode, hheader]
        simp only [List.length_take]
        rw [if_pos (by omega)]
    · intro more
      rw [decode_frame_append hh hlen more]
      rw [hrun] at h
      split at h
      · cases h
        rfl
      · cases h

theorem decode_error_append {e : CodecError} (h : decode buf version = (.error e, rest))
    (more : Bytes) : decode (buf ++ more) version = (.error e, rest ++ more) := by
  rcases decode_cases buf version with ⟨e', hh, he⟩ | hnone | ⟨header, n, hh, hlen, hrun⟩
  · rw [he] at h
    cases h
    rw [decode, FixedHeader.decode_append_error hh more]
  · rw [hnone] at h
    cases h
  · rw [decode_frame_append hh hlen]
    rw [hrun] at h
    split at h
    · cases h
    · cases h
      rfl

theorem decode_none (h : decode buf version = (.ok none, rest)) : rest = buf := by
  rcases decode_cases buf version with ⟨e', hh, he⟩ | hnone | ⟨header, n, hh, hlen, hrun⟩
  · rw [he] at h
    cases h
  · rw [hnone] at h
    cases h
    rfl
  · rw [hrun] at h
    split at h <;> cases h

end Packet

/-! ## A whole stream -/

/-- What a reader got out of its buffer: the packets, the error that ended the stream if
there was one, and the bytes that are left. -/
@[ext]
structure Drained where
  packets : List Packet
  error : Option CodecError
  left : Bytes
  deriving DecidableEq, Repr

/-- Packets until one is not all there, or an error. A packet takes a byte at least, so as
many turns as there are bytes are enough. -/
def drain_loop (version : ProtocolVersion) : Nat → Bytes → Drained
  | 0, buf => { packets := [], error := none, left := buf }
  | turns + 1, buf => match Packet.decode buf version with
    | (.ok (some p), rest) =>
      let d := drain_loop version turns rest
      { d with packets := p :: d.packets }
    | (.ok none, rest) => { packets := [], error := none, left := rest }
    | (.error e, rest) => { packets := [], error := some e, left := rest }

def drain (version : ProtocolVersion) (buf : Bytes) : Drained :=
  drain_loop version buf.length buf

/-- The reader of a connection: each chunk goes behind the bytes that were left, until an
error ends the stream. -/
def feed (version : ProtocolVersion) (d : Drained) (chunk : Bytes) : Drained :=
  match d.error with
  | some _ => d
  | none =>
    let more := drain version (d.left ++ chunk)
    { more with packets := d.packets ++ more.packets }

theorem drain_loop_turns (version : ProtocolVersion) (turns turns' : Nat) (buf : Bytes)
    (h : buf.length ≤ turns) (h' : buf.length ≤ turns') :
    drain_loop version turns buf = drain_loop version turns' buf := by
  induction turns generalizing turns' buf with
  | zero =>
    obtain rfl : buf = [] := List.length_eq_zero_iff.mp (by omega)
    cases turns' <;> rfl
  | succ turns ih =>
    cases turns' with
    | zero =>
      obtain rfl : buf = [] := List.length_eq_zero_iff.mp (by omega)
      rfl
    | succ turns' =>
      unfold drain_loop
      rcases hd : Packet.decode buf version with ⟨(e | (_ | p)), rest⟩
      · rfl
      · rfl
      · obtain ⟨n, hpos, hn, rfl, -, -⟩ := Packet.decode_packet hd
        simp only
        rw [ih turns' _ (by rw [List.length_drop]; omega) (by rw [List.length_drop]; omega)]

variable {version : ProtocolVersion} {buf rest : Bytes}

theorem drain_packet {p : Packet} (h : Packet.decode buf version = (.ok (some p), rest)) :
    drain version buf =
      { drain version rest with packets := p :: (drain version rest).packets } := by
  obtain ⟨n, hpos, hn, rfl, -, -⟩ := Packet.decode_packet h
  obtain ⟨turns, hturns⟩ : ∃ t, buf.length = t + 1 := ⟨buf.length - 1, by omega⟩
  unfold drain
  rw [hturns, drain_loop, h]
  simp only
  rw [drain_loop_turns version turns (buf.drop n).length _ (by rw [List.length_drop]; omega)
    (le_refl _)]

theorem drain_none (h : Packet.decode buf version = (.ok none, rest)) :
    drain version buf = { packets := [], error := none, left := rest } := by
  unfold drain
  rcases hlen : buf.length with _ | turns
  · rw [drain_loop, Packet.decode_none h]
  · rw [drain_loop, h]

theorem drain_error {e : CodecError} (h : Packet.decode buf version = (.error e, rest)) :
    drain version buf = { packets := [], error := some e, left := rest } := by
  unfold drain
  rcases hlen : buf.length with _ | turns
  · obtain rfl : buf = [] := List.length_eq_zero_iff.mp hlen
    cases h
  · rw [drain_loop, h]

/-- Bytes that come later do not change what came out of the earlier ones: an error stays,
and otherwise the bytes that were left are read on. -/
theorem drain_append (version : ProtocolVersion) (buf more : Bytes) :
    (∀ e, (drain version buf).error = some e →
      (drain version (buf ++ more)).packets = (drain version buf).packets ∧
      (drain version (buf ++ more)).error = some e) ∧
    ((drain version buf).error = none →
      drain version (buf ++ more) =
        { drain version ((drain version buf).left ++ more) with
          packets := (drain version buf).packets ++
            (drain version ((drain version buf).left ++ more)).packets }) := by
  induction hlen : buf.length using Nat.strong_induction_on generalizing buf with
  | _ len ih =>
    rcases hd : Packet.decode buf version with ⟨(e | (_ | p)), rest⟩
    · rw [drain_error hd, drain_error (Packet.decode_error_append hd more)]
      simp
    · rw [drain_none hd, Packet.decode_none hd]
      simp
    · obtain ⟨n, hpos, hn, hrest, -, happend⟩ := Packet.decode_packet hd
      have hbuf := drain_packet hd
      have hmore := drain_packet (happend more)
      have hshort : rest.length < len := by
        rw [hrest, List.length_drop]
        omega
      obtain ⟨herror, hnone⟩ := ih _ hshort rest rfl
      rw [hbuf, hmore]
      refine ⟨fun e he => ?_, fun he => ?_⟩
      · obtain ⟨hp, he'⟩ := herror e he
        exact ⟨by simp only [hp], he'⟩
      · rw [hnone he]
        simp

/-- The same packets and the same error, and the same bytes left while there is none. -/
structure Drained.Same (d d' : Drained) : Prop where
  packets : d.packets = d'.packets
  error : d.error = d'.error
  left : d'.error = none → d.left = d'.left

variable {d d' : Drained}

theorem Drained.Same.trans {d'' : Drained} (h : d.Same d') (h' : d'.Same d'') : d.Same d'' :=
  ⟨h.packets.trans h'.packets, h.error.trans h'.error,
    fun hn => (h.left (h'.error.trans hn)).trans (h'.left hn)⟩

theorem feed_same (h : d.Same d') (chunk : Bytes) :
    (feed version d chunk).Same (feed version d' chunk) := by
  rcases he : d'.error with _ | e
  · obtain rfl : d = d' := Drained.ext h.packets h.error (h.left he)
    exact ⟨rfl, rfl, fun _ => rfl⟩
  · simp only [feed, he, h.error.trans he]
    exact h

/-- A stream that was not cut gives what the stream in two pieces gives. -/
theorem feed_append (version : ProtocolVersion) (d : Drained) (a b : Bytes) :
    (feed version (feed version d a) b).Same (feed version d (a ++ b)) := by
  rcases hd : d.error with _ | e
  · obtain ⟨herror, hnone⟩ := drain_append version (d.left ++ a) b
    have hab : feed version d (a ++ b) =
        { drain version (d.left ++ a ++ b) with
          packets := d.packets ++ (drain version (d.left ++ a ++ b)).packets } := by
      simp only [feed, hd, List.append_assoc]
    have ha : feed version d a =
        { drain version (d.left ++ a) with
          packets := d.packets ++ (drain version (d.left ++ a)).packets } := by
      simp only [feed, hd]
    rcases he : (drain version (d.left ++ a)).error with _ | e
    · rw [hab, hnone he, ha]
      simp only [feed, he]
      exact ⟨by simp, rfl, fun _ => rfl⟩
    · obtain ⟨hp, he'⟩ := herror e he
      rw [hab, ha]
      simp only [feed, he, hp]
      exact ⟨rfl, he'.symm, fun hn => by rw [he'] at hn; cases hn⟩
  · simp only [feed, hd]
    exact ⟨rfl, rfl, fun _ => rfl⟩

/-- A connection before its first byte. -/
def started : Drained := { packets := [], error := none, left := [] }

theorem feeds_flatten (version : ProtocolVersion) (chunks : List Bytes) :
    (chunks.foldl (feed version) started).Same (feed version started chunks.flatten) := by
  induction chunks using List.reverseRecOn with
  | nil => exact ⟨rfl, rfl, fun _ => rfl⟩
  | append_singleton chunks chunk ih =>
    rw [List.foldl_append, List.flatten_append]
    simp only [List.foldl_cons, List.foldl_nil, List.flatten_cons, List.flatten_nil,
      List.append_nil]
    exact (feed_same ih chunk).trans (feed_append version started chunks.flatten chunk)

/-- A packet needs all of its bytes and no other, an error stays whatever follows, and so
every cut of a stream gives the same packets and the same error. -/
theorem decoding_is_independent_of_chunking (version : ProtocolVersion) (b : Bytes) :
    (∀ p rest, Packet.decode b version = (.ok (some p), rest) →
      ∃ n, n ≤ b.length ∧ rest = b.drop n ∧
        (∀ k < n, Packet.decode (b.take k) version = (.ok none, b.take k)) ∧
        ∀ more, Packet.decode (b ++ more) version = (.ok (some p), (b ++ more).drop n)) ∧
    (∀ e rest, Packet.decode b version = (.error e, rest) →
      ∀ more, ∃ rest', Packet.decode (b ++ more) version = (.error e, rest')) ∧
    ∀ chunks : List Bytes, chunks.flatten = b →
      (chunks.foldl (feed version) started).packets = (feed version started b).packets ∧
        (chunks.foldl (feed version) started).error = (feed version started b).error := by
  refine ⟨?_, ?_, ?_⟩
  · intro p rest h
    obtain ⟨n, -, hn, rfl, hshort, happend⟩ := Packet.decode_packet h
    refine ⟨n, hn, rfl, hshort, fun more => ?_⟩
    rw [happend more, List.drop_append_of_le_length hn]
  · intro e rest h more
    exact ⟨_, Packet.decode_error_append h more⟩
  · rintro chunks rfl
    have h := feeds_flatten version chunks
    exact ⟨h.packets, h.error⟩

/-- A ping and its answer, cut in the middle of both. -/
theorem decoding_two_pings_is_independent_of_chunking :
    Packet.decode [0xC0, 0x00, 0xD0, 0x00] .V311 = (.ok (some .PingReq), [0xD0, 0x00]) ∧
      Packet.decode [0xC0] .V311 = (.ok none, [0xC0]) ∧
      ([[0xC0], [0x00, 0xD0], [0x00]].foldl (feed .V311) started).packets =
        [.PingReq, .PingResp] := by
  have h := decoding_is_independent_of_chunking .V311 [0xC0, 0x00, 0xD0, 0x00]
  have hping : Packet.decode [0xC0, 0x00, 0xD0, 0x00] .V311 = (.ok (some .PingReq), [0xD0, 0x00]) := by
    decide +kernel
  obtain ⟨n, hn, hrest, hshort, -⟩ := h.1 _ _ hping
  have h1 : 1 < n := by
    by_contra hle
    have hlen := congrArg List.length hrest
    simp only [List.length_drop, List.length_cons, List.length_nil] at hlen hn
    omega
  refine ⟨hping, hshort 1 h1, ?_⟩
  rw [(h.2.2 _ rfl).1]
  decide +kernel

end mqtt_codec
