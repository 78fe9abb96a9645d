import Cdr.Proofs.Script

/-! # How far a script reaches

Whatever a sink does at its end and whether or not it takes all that is written, a script changes
nothing in it but what it emits bytes over: what stands before the head stays, and so does what lies
further behind the head than the script can go. A patch stays inside, as it goes back no further
than the script has gone forward.
-/

namespace Cdr

theorem getElem?_overwrite {bytes : Array UInt8} {start k : Nat} {chunk : List UInt8}
    (h : k < start ∨ start + chunk.length ≤ k) : (overwrite bytes start chunk)[k]? = bytes[k]? := by
  induction chunk generalizing bytes start with
  | nil => rfl
  | cons b bs ih =>
    rw [List.length_cons] at h
    have hne : start ≠ k := by omega
    rw [overwrite, ih (by omega), Array.getElem?_setIfInBounds_ne hne]

theorem getElem?_append_list {bytes : Array UInt8} {k : Nat} (h : k < bytes.size) (b : List UInt8) :
    (bytes ++ b)[k]? = bytes[k]? := by
  rw [← Array.getElem?_toList, Array.toList_appendList, List.getElem?_append_left h,
    Array.getElem?_toList]

namespace Sink

/-- That a sink came out of another one by writing over at most `count` bytes behind its head. -/
structure WithinReach (before after : Sink) (count : Nat) : Prop where
  kind : after.kind = before.kind
  forward : before.head ≤ after.head
  ahead : after.head ≤ before.head + count
  keeps : before.bytes.size ≤ after.bytes.size
  size : after.bytes.size ≤ max before.bytes.size (before.head + count)
  outside : ∀ k < before.bytes.size, k < before.head ∨ before.head + count ≤ k →
    after.bytes[k]? = before.bytes[k]?

variable {before mid after sink : Sink} {m n count : Nat} {chunk : List UInt8}

theorem WithinReach.refl (sink : Sink) : sink.WithinReach sink 0 where
  kind := rfl
  forward := Nat.le_refl _
  ahead := Nat.le_refl _
  keeps := Nat.le_refl _
  size := Nat.le_max_left _ _
  outside _ _ _ := rfl

theorem WithinReach.mono (h : before.WithinReach after m) (hle : m ≤ n) :
    before.WithinReach after n where
  kind := h.kind
  forward := h.forward
  ahead := Nat.le_trans h.ahead (by omega)
  keeps := h.keeps
  size := Nat.le_trans h.size (by omega)
  outside k hk hout := h.outside k hk (hout.imp id fun hle' => by omega)

theorem WithinReach.trans (h : before.WithinReach mid m) (h' : mid.WithinReach after n) :
    before.WithinReach after (m + n) := by
  have hforward := h.forward
  have hahead := h.ahead
  refine ⟨h'.kind.trans h.kind, Nat.le_trans hforward h'.forward, ?_,
    Nat.le_trans h.keeps h'.keeps, ?_, fun k hk hout => ?_⟩
  · have hahead' := h'.ahead
    omega
  · have hsize := h.size
    have hsize' := h'.size
    omega
  · rw [h'.outside k (Nat.lt_of_lt_of_le hk h.keeps) (by omega), h.outside k hk (by omega)]

/-- A write reaches over as many bytes as it has, also when not all of them are taken. -/
theorem withinReach_write (sink : Sink) (chunk : List UInt8) :
    sink.WithinReach (sink.write chunk).1 chunk.length := by
  obtain ⟨kind, bytes, position⟩ := sink
  cases kind with
  | appending =>
    have hsize : (bytes ++ chunk).size = bytes.size + chunk.length := size_append_list bytes chunk
    refine ⟨rfl, ?_, ?_, ?_, ?_, fun k hk _ => getElem?_append_list hk chunk⟩ <;>
      simp only [write, head, hsize] <;> omega
  | growing =>
    let filled := bytes ++ List.replicate (position - bytes.size) (0 : UInt8)
    have hfilled : filled.size = max bytes.size position := by
      rw [size_append_list, List.length_replicate]
      omega
    have hsize : ((write ⟨.growing, bytes, position⟩ chunk).1.bytes).size =
        filled.size + (chunk.length - (filled.size - position)) := by
      simp only [write]
      rw [size_append_list, size_overwrite, List.length_drop]
    refine ⟨rfl, Nat.le_add_right _ _, Nat.le_refl _, ?_, ?_, fun k hk hout => ?_⟩
    · rw [hsize]
      simp only [hfilled]
      omega
    · rw [hsize]
      simp only [hfilled, head]
      omega
    · have hlength : (chunk.take (filled.size - position)).length ≤ chunk.length := by
        rw [List.length_take]
        omega
      have hin : k < (overwrite filled position (chunk.take (filled.size - position))).size := by
        rw [size_overwrite, hfilled]
        simp only at hk
        omega
      simp only [write, head] at hout ⊢
      rw [getElem?_append_list hin, getElem?_overwrite (by omega), getElem?_append_list hk]
  | fixed =>
    have hfits : min chunk.length (bytes.size - position) ≤ chunk.length := Nat.min_le_left _ _
    refine ⟨rfl, Nat.le_add_right _ _, ?_, ?_, ?_, fun k hk hout => ?_⟩
    · simp only [write, head]
      omega
    · simp only [write, size_overwrite, Nat.le_refl]
    · simp only [write, size_overwrite]
      omega
    · simp only [write, head] at hout ⊢
      rw [getElem?_overwrite]
      rw [List.length_take]
      omega

/-- A write that takes all of its bytes moves the head behind them. -/
theorem head_write (h : (sink.write chunk).2 = none) :
    (sink.write chunk).1.head = sink.head + chunk.length := by
  obtain ⟨kind, bytes, position⟩ := sink
  cases kind with
  | appending => exact size_append_list bytes chunk
  | growing => rfl
  | fixed =>
    simp only [write, ite_eq_right_iff, reduceCtorEq, imp_false] at h
    simp only [write, head]
    omega

/-- A patch that is refused changes nothing. -/
theorem patch_eq (sink : Sink) (back : Nat) (chunk : List UInt8) :
    (sink.patch back chunk).1 = sink ∨ (sink.patch back chunk).1 =
      { sink with bytes := overwrite sink.bytes (sink.head - back) chunk } := by
  unfold patch
  split
  · exact .inl rfl
  · dsimp only
    split
    · exact .inl rfl
    · exact .inr rfl

theorem head_patch (sink : Sink) (back : Nat) (chunk : List UInt8) :
    (sink.patch back chunk).1.head = sink.head := by
  rcases patch_eq sink back chunk with heq | heq <;> rw [heq]
  obtain ⟨kind, bytes, position⟩ := sink
  cases kind with
  | appending => exact size_overwrite _ _ _
  | growing => rfl
  | fixed => rfl

/-- A patch that goes back to where a script began replaces bytes that the script was free to
    replace. -/
theorem WithinReach.patch (h : before.WithinReach after count)
    (hhead : after.head = before.head + count) (hfits : chunk.length ≤ count) :
    before.WithinReach (after.patch count chunk).1 count := by
  have hmoved := head_patch after count chunk
  rcases patch_eq after count chunk with heq | heq <;> rw [heq] at hmoved ⊢
  · exact h
  · refine ⟨h.kind, by rw [hmoved]; exact h.forward, by rw [hmoved]; exact h.ahead, ?_, ?_, ?_⟩
    · simpa only [size_overwrite] using h.keeps
    · simpa only [size_overwrite] using h.size
    · intro k hk hout
      rw [getElem?_overwrite (by omega), h.outside k hk hout]

end Sink

namespace WriteM

/-- That a writer changes at most `count` bytes of any sink, those behind its head. -/
def Confined (m : WriteM Unit) (count : Nat) : Prop :=
  ∀ w : Writer, w.sink.WithinReach (m.outcome w).2.sink count

/-- That a writer that ends without a fault has moved the head of its sink by `count`. -/
def Moves (m : WriteM Unit) (count : Nat) : Prop :=
  ∀ w after : Writer, m.run w = .ok () after → after.sink.head = w.sink.head + count

variable {m k : WriteM Unit} {a b count : Nat} {word : List UInt8}

theorem confined_nothing : Confined (pure ()) 0 :=
  fun w => .refl w.sink

theorem Confined.mono (h : Confined m a) (hle : a ≤ b) : Confined m b :=
  fun w => (h w).mono hle

theorem confined_andThen (hm : Confined m a) (hk : Confined k b) : Confined (do m; k) (a + b) := by
  intro w
  have first := hm w
  simp only [outcome, EStateM.run_bind] at first ⊢
  cases hrun : m.run w with
  | error fault after =>
    rw [hrun] at first
    exact first.mono (Nat.le_add_right a b)
  | ok u mid =>
    rw [hrun] at first
    exact first.trans (hk mid)

theorem confined_emit (chunk : List UInt8) : Confined (emit chunk) chunk.length := by
  intro w
  have hwrite := Sink.withinReach_write w.sink chunk
  rcases hsink : w.sink.write chunk with ⟨sink, fault | fault⟩ <;>
    · rw [hsink] at hwrite
      simpa only [outcome, emit, EStateM.run, hsink] using hwrite

theorem moves_nothing : Moves (pure ()) 0 := by
  intro w after h
  cases h
  rfl

theorem moves_andThen (hm : Moves m a) (hk : Moves k b) : Moves (do m; k) (a + b) := by
  intro w after h
  rw [EStateM.run_bind] at h
  cases hrun : m.run w with
  | error fault last =>
    rw [hrun] at h
    cases h
  | ok u mid =>
    rw [hrun] at h
    rw [hk mid after h, hm w mid hrun, Nat.add_assoc]

theorem moves_emit (chunk : List UInt8) : Moves (emit chunk) chunk.length := by
  intro w after h
  rcases hsink : w.sink.write chunk with ⟨sink, fault | fault⟩
  · simp only [emit, EStateM.run, hsink] at h
    cases h
    have hhead := @Sink.head_write w.sink chunk (by rw [hsink])
    rwa [hsink] at hhead
  · simp only [emit, EStateM.run, hsink] at h
    cases h

theorem moves_patch (back : Nat) (chunk : List UInt8) : Moves (patch back chunk) 0 := by
  intro w after h
  rcases hsink : w.sink.patch back chunk with ⟨sink, fault | fault⟩
  · simp only [patch, EStateM.run, hsink] at h
    cases h
    have hhead := Sink.head_patch w.sink back chunk
    rwa [hsink] at hhead
  · simp only [patch, EStateM.run, hsink] at h
    cases h

/-- A patch back to where a writer began reaches no further than the writer. -/
theorem confined_patched (hm : Confined m count) (hmoves : Moves m count)
    (hfits : word.length ≤ count) : Confined (do m; patch count word) count := by
  intro w
  have first := hm w
  simp only [outcome, EStateM.run_bind] at first ⊢
  cases hrun : m.run w with
  | error fault after =>
    rw [hrun] at first
    exact first
  | ok u mid =>
    rw [hrun] at first
    have hpatch := first.patch (hmoves w mid hrun) hfits
    rcases hsink : mid.sink.patch count word with ⟨sink, fault | fault⟩ <;>
      · rw [hsink] at hpatch
        simpa only [patch, EStateM.run, hsink] using hpatch

end WriteM

namespace Script

open WriteM

theorem moves_perform (ops : Script) : Moves (perform ops) (advance ops) := by
  induction ops with
  | nil => exact moves_nothing
  | cons op rest ih =>
    cases op with
    | emit chunk => exact moves_andThen (moves_emit chunk) ih
    | patch back chunk =>
      have h := moves_andThen (moves_patch back chunk) ih
      rwa [Nat.zero_add] at h

/-- A balanced script reaches over the bytes it leaves behind. -/
theorem Balanced.confined {ops : Script} {b : List UInt8} (h : Balanced ops b) :
    Confined (perform ops) b.length := by
  induction h with
  | nil => exact confined_nothing
  | emit chunk tail ih =>
    rw [List.length_append]
    exact confined_andThen (confined_emit chunk) ih
  | @patched word inner rest body b width inside tail ihInside ihTail =>
    have hword : word.length = 4 := width
    -- With its placeholder the body is as long as the patch goes back.
    have hframe : Confined ((do (SinkOp.emit placeholder).run; perform inner) >>= fun _ =>
        patch (body.length + 4) word) (body.length + 4) := by
      refine confined_patched ?_ ?_ (by omega)
      · exact (confined_andThen (confined_emit placeholder) ihInside).mono
          (Nat.le_of_eq (Nat.add_comm 4 body.length))
      · have hmoves := moves_andThen (moves_emit placeholder) (moves_perform inner)
        rw [inside.advance_eq, Nat.add_comm] at hmoves
        exact hmoves
    have hall := confined_andThen hframe ihTail
    simp only [bind_assoc] at hall
    simp only [perform, perform_append]
    exact hall.mono (by simp only [List.length_append]; omega)

/-- Also a torn script reaches over no more than what it emits. -/
theorem Torn.confined {ops : Script} (h : Torn ops) : Confined (perform ops) (advance ops) := by
  induction h with
  | whole closed =>
    rw [closed.advance_eq]
    exact closed.confined
  | @opened before inner b closed inside ih =>
    rw [perform_append, advance_append, closed.advance_eq]
    exact confined_andThen closed.confined (confined_andThen (confined_emit placeholder) ih)

end Script

end Cdr
