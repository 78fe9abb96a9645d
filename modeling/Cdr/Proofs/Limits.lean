import Cdr.Proofs.Metering
import Cdr.Wire.Payload

/-! # Reading under a limit

All that a limit decides on is the furthest position that a read without one comes to: a limit that
covers it changes nothing, and a smaller one ends the read with the error of the limit, which no
optional member can hide.
-/

namespace Cdr

open ReadM

/-- How a reader behaves under limits when it touches `touched` of `size` bytes: a limit does nothing
    but stop it, and does so exactly when it is too small for what is touched. -/
structure Limited {α : Type} (read : Limit → Reading α) (touched size : Nat) : Prop where
  sameOrStopped : ∀ n, read (.bounded n) = read .infinite ∨
    (read (.bounded n)).result = .error .sizeLimit
  stopped_iff : ∀ n, (read (.bounded n)).result = .error .sizeLimit ↔ n < touched
  notStopped : (read .infinite).result ≠ .error .sizeLimit
  enough : ∀ n, size ≤ n → read (.bounded n) = read .infinite
  stable : ∀ n, (read (.bounded n)).result ≠ .error .sizeLimit →
    ∀ m, n ≤ m → read (.bounded m) = read (.bounded n)

theorem Limited.of_touched {α : Type} {read : Limit → Reading α} {touched size : Nat}
    (hcovered : ∀ n, touched ≤ n → read (.bounded n) = read .infinite)
    (hexhausted : ∀ n, n < touched → (read (.bounded n)).result = .error .sizeLimit)
    (hunlimited : (read .infinite).result ≠ .error .sizeLimit) (hsize : touched ≤ size) :
    Limited read touched size := by
  have hiff : ∀ n, (read (.bounded n)).result = .error .sizeLimit ↔ n < touched := by
    intro n
    constructor
    · intro hstopped
      by_contra hreached
      rw [hcovered n (Nat.le_of_not_lt hreached)] at hstopped
      exact hunlimited hstopped
    · exact hexhausted n
  refine ⟨?_, hiff, hunlimited, ?_, ?_⟩
  · intro n
    by_cases h : n < touched
    · exact .inr (hexhausted n h)
    · exact .inl (hcovered n (Nat.le_of_not_lt h))
  · intro n hn
    exact hcovered n (Nat.le_trans hsize hn)
  · intro n hn m hm
    have htouched : touched ≤ n := Nat.le_of_not_lt ((hiff n).not.1 hn)
    rw [hcovered n htouched, hcovered m (Nat.le_trans htouched hm)]

namespace Schema

variable (schema : Schema)

/-- The furthest position that is reached when a value is read without a limit. -/
def touched (src : Source) (i : Fin schema.size) : Nat :=
  ((schema.read src "" i).outcome (src.start .infinite)).2.highWater

/-- The same for a payload, whose header is touched as soon as it says how to read on. -/
def touchedPayload (i : Fin schema.size) (bytes : Array UInt8) : Nat :=
  match Header.parse (bytes.extract 0 headerSize).toList with
  | .ok header =>
    headerSize + schema.touched ⟨bytes.extract headerSize bytes.size, header.encoding, 0⟩ i
  | .error _ => 0

variable {schema}

theorem metered_read (src : Source) (i : Fin schema.size) :
    Metered src (schema.read src "" i) (src.start .infinite) :=
  metered_readType schema src maxDepth "" i _ (.start src)

theorem touched_le (src : Source) (i : Fin schema.size) :
    schema.touched src i ≤ src.bytes.size :=
  (metered_read src i).unlimited.highWater_le

theorem decode_covered (src : Source) (i : Fin schema.size) {n : Nat}
    (h : schema.touched src i ≤ n) :
    schema.decode src i (.bounded n) = schema.decode src i .infinite := by
  have hstart : src.start (.bounded n) = (src.start .infinite).under n := rfl
  have hread := (metered_read src i).covered n h
  simp only [decode, hstart, hread]
  rfl

theorem decode_exhausted (src : Source) (i : Fin schema.size) {n : Nat}
    (h : n < schema.touched src i) :
    (schema.decode src i (.bounded n)).result = .error .sizeLimit := by
  have hstart : src.start (.bounded n) = (src.start .infinite).under n := rfl
  have hread := (metered_read src i).exhausted n (Nat.zero_le n) h
  simp only [decode, hstart, hread]
  rfl

theorem decode_unlimited (src : Source) (i : Fin schema.size) :
    (schema.decode src i .infinite).result ≠ .error .sizeLimit := by
  have hread := (metered_read src i).noLimit
  rcases houtcome : (schema.read src "" i).outcome (src.start .infinite) with ⟨fault | v, last⟩
  · rw [houtcome] at hread
    simp only [decode, houtcome]
    intro heq
    cases heq
    exact hread rfl
  · simp [decode, houtcome, Except.map]

theorem limited_decode (src : Source) (i : Fin schema.size) :
    Limited (schema.decode src i) (schema.touched src i) src.bytes.size :=
  .of_touched (fun _ => decode_covered src i) (fun _ => decode_exhausted src i)
    (decode_unlimited src i) (touched_le src i)

/-- No more bytes are taken than a limit allows. -/
theorem count_le_limit {src : Source} {i : Fin schema.size} {n : Nat} {v : Value} {count : Nat}
    (h : (schema.decode src i (.bounded n)).result = .ok (v, count)) : count ≤ n := by
  have htouched : schema.touched src i ≤ n := by
    by_contra hlt
    rw [decode_exhausted src i (Nat.lt_of_not_le hlt)] at h
    cases h
  rw [decode_covered src i htouched] at h
  have hmark := (metered_read src i).unlimited.position_le
  unfold touched at htouched
  rcases houtcome : (schema.read src "" i).outcome (src.start .infinite) with ⟨fault | w, last⟩
  · simp only [decode, houtcome] at h
    cases h
  · simp only [decode, houtcome] at h
    cases h
    rw [houtcome] at hmark htouched
    exact Nat.le_trans hmark htouched

theorem limit_surfaces {src : Source} {i : Fin schema.size} {limit : Limit} {ends : List Nat}
    {call : Call schema.size} {c after : Cursor} (hcall : Reaches schema src i limit ends call c)
    (hrun : (call.run schema src).run c = .error .sizeLimit after) :
    (schema.decode src i limit).result = .error .sizeLimit := by
  have hread : Fails (schema.read src "" i) (src.start limit) .sizeLimit :=
    hcall.surfaces rfl (.of_run hrun)
  unfold Fails at hread
  simp only [decode, hread]
  rfl

theorem parse_ne_sizeLimit {bytes : List UInt8} {fault : WireError}
    (h : Header.parse bytes = .error fault) : fault ≠ .sizeLimit := by
  unfold Header.parse at h
  split at h
  · split at h
    · split at h
      · cases h
      · cases h
        nofun
    · cases h
      nofun
  · cases h
    nofun

theorem size_of_parse {bytes : Array UInt8} {header : Header}
    (h : Header.parse (bytes.extract 0 headerSize).toList = .ok header) :
    headerSize ≤ bytes.size := by
  by_contra hshort
  have hlength : (bytes.extract 0 headerSize).toList.length < 4 := by
    rw [Array.length_toList, Array.size_extract]
    unfold headerSize at hshort ⊢
    omega
  revert h hlength
  generalize (bytes.extract 0 headerSize).toList = front
  intro h hlength
  unfold Header.parse at h
  split at h
  · simp only [List.length_cons] at hlength
    omega
  · cases h

theorem map_eq_error {α β : Type} {result : Except WireError α} {f : α → β} {fault : WireError}
    (h : result.map f = .error fault) : result = .error fault := by
  cases result with
  | error other =>
    cases h
    rfl
  | ok a => cases h

variable {i : Fin schema.size} {bytes : Array UInt8}

theorem deserialize_of_parse_error {fault : WireError} (limit : Limit)
    (h : Header.parse (bytes.extract 0 headerSize).toList = .error fault) :
    schema.deserialize limit i bytes = ⟨.error fault, []⟩ := by
  simp only [deserialize, h]
  rfl

/-- The header is charged before the body is read with what is left. -/
theorem deserialize_of_charge {header : Header} {limit left : Limit}
    (h : Header.parse (bytes.extract 0 headerSize).toList = .ok header)
    (hcharge : limit.charge headerSize = .ok left) :
    schema.deserialize limit i bytes =
      let body := schema.decode ⟨bytes.extract headerSize bytes.size, header.encoding, 0⟩ i left
      ⟨body.result.map Prod.fst, body.events⟩ := by
  simp only [deserialize, h, hcharge]
  rfl

theorem deserialize_of_small {header : Header} {n : Nat}
    (h : Header.parse (bytes.extract 0 headerSize).toList = .ok header) (hn : n < headerSize) :
    schema.deserialize (.bounded n) i bytes = ⟨.error .sizeLimit, []⟩ := by
  have hcharge : (Limit.bounded n).charge headerSize = .error .sizeLimit :=
    (Limit.charge_eq_error_iff _ _).2 ⟨n, rfl, hn⟩
  simp only [deserialize, h, hcharge]
  rfl

theorem limited_deserialize (i : Fin schema.size) (bytes : Array UInt8) :
    Limited (fun limit => schema.deserialize limit i bytes) (schema.touchedPayload i bytes)
      bytes.size := by
  cases hparse : Header.parse (bytes.extract 0 headerSize).toList with
  | error fault =>
    have hsame : ∀ limit, schema.deserialize limit i bytes = ⟨.error fault, []⟩ :=
      fun limit => deserialize_of_parse_error limit hparse
    have htouched : schema.touchedPayload i bytes = 0 := by simp only [touchedPayload, hparse]
    refine .of_touched ?_ ?_ ?_ ?_
    · intro n _
      rw [hsame, hsame]
    · intro n hn
      omega
    · rw [hsame]
      intro heq
      cases heq
      exact parse_ne_sizeLimit hparse rfl
    · omega
  | ok header =>
    let body : Source := ⟨bytes.extract headerSize bytes.size, header.encoding, 0⟩
    have htouched : schema.touchedPayload i bytes = headerSize + schema.touched body i := by
      simp only [touchedPayload, hparse, body]
    have hfree : schema.deserialize .infinite i bytes =
        ⟨(schema.decode body i .infinite).result.map Prod.fst,
          (schema.decode body i .infinite).events⟩ :=
      deserialize_of_charge hparse (Limit.charge_infinite headerSize)
    refine .of_touched ?_ ?_ ?_ ?_
    · intro n hn
      rw [htouched] at hn
      have hleft : schema.touched body i ≤ n - headerSize := by omega
      have hcharge : (Limit.bounded n).charge headerSize = .ok (.bounded (n - headerSize)) :=
        Limit.charge_bounded_of_le (by omega)
      rw [deserialize_of_charge hparse hcharge, hfree]
      simp only [body, decode_covered _ i hleft]
    · intro n hn
      by_cases hsmall : n < headerSize
      · rw [deserialize_of_small hparse hsmall]
      · have hleft : n - headerSize < schema.touched body i := by omega
        have hcharge : (Limit.bounded n).charge headerSize = .ok (.bounded (n - headerSize)) :=
          Limit.charge_bounded_of_le (Nat.le_of_not_lt hsmall)
        rw [deserialize_of_charge hparse hcharge]
        exact congrArg (Except.map Prod.fst) (decode_exhausted body i hleft)
    · rw [hfree]
      intro heq
      exact decode_unlimited body i (map_eq_error heq)
    · have hsize := size_of_parse hparse
      have hbody := touched_le body i
      have hrest : body.bytes.size = bytes.size - headerSize := by
        simp only [body, Array.size_extract, Nat.min_self]
      omega

/-- A limit does nothing to a read but end it with the error of the limit, and does so exactly when
    the read without a limit comes further than the limit allows, which it never does behind the
    last byte. No call of the reader keeps that error to itself, so an optional member is not taken
    to be absent because of it. A payload is read in the same way, its header being charged before
    its body. -/
theorem limit_only_stops (schema : Schema) (i : Fin schema.size) :
    (∀ src : Source,
      Limited (schema.decode src i) (schema.touched src i) src.bytes.size ∧
      (∀ n v count, (schema.decode src i (.bounded n)).result = .ok (v, count) → count ≤ n) ∧
      ∀ limit ends call c after, Reaches schema src i limit ends call c →
        (call.run schema src).run c = .error .sizeLimit after →
          (schema.decode src i limit).result = .error .sizeLimit) ∧
    ∀ bytes : Array UInt8,
      Limited (fun limit => schema.deserialize limit i bytes) (schema.touchedPayload i bytes)
        bytes.size ∧
      ∀ header, Header.parse (bytes.extract 0 headerSize).toList = .ok header →
        let body : Source := ⟨bytes.extract headerSize bytes.size, header.encoding, 0⟩
        (∀ n, n < headerSize → schema.deserialize (.bounded n) i bytes = ⟨.error .sizeLimit, []⟩) ∧
        (∀ n, headerSize ≤ n → schema.deserialize (.bounded n) i bytes =
          ⟨(schema.decode body i (.bounded (n - headerSize))).result.map Prod.fst,
            (schema.decode body i (.bounded (n - headerSize))).events⟩) ∧
        ∀ n v, (schema.deserialize (.bounded n) i bytes).result = .ok v →
          ∃ count, (schema.decode body i (.bounded (n - headerSize))).result = .ok (v, count) ∧
            headerSize + count ≤ n := by
  refine ⟨?bodies, ?payloads⟩
  case bodies =>
    intro src
    refine ⟨limited_decode src i, ?_, ?_⟩
    · intro n v count
      exact count_le_limit
    · intro limit ends call c after
      exact limit_surfaces
  case payloads =>
    intro bytes
    refine ⟨limited_deserialize i bytes, ?_⟩
    intro header hparse body
    have hlarge : ∀ n, headerSize ≤ n → schema.deserialize (.bounded n) i bytes =
        ⟨(schema.decode body i (.bounded (n - headerSize))).result.map Prod.fst,
          (schema.decode body i (.bounded (n - headerSize))).events⟩ :=
      fun n hn => deserialize_of_charge hparse (Limit.charge_bounded_of_le hn)
    refine ⟨fun n => deserialize_of_small hparse, hlarge, ?_⟩
    intro n v hread
    by_cases hsmall : n < headerSize
    · rw [deserialize_of_small hparse hsmall] at hread
      cases hread
    · rw [hlarge n (Nat.le_of_not_lt hsmall)] at hread
      cases hbody : (schema.decode body i (.bounded (n - headerSize))).result with
      | error fault =>
        rw [hbody] at hread
        cases hread
      | ok read =>
        obtain ⟨w, count⟩ := read
        rw [hbody] at hread
        cases hread
        have hcount := count_le_limit hbody
        exact ⟨count, rfl, by omega⟩

end Schema

end Cdr
