/-
  Content in whatever pieces it comes.

  A reading gives its bytes piece by piece, and they are copied bit by bit.  Neither
  matters: what is stored, and whether and why the copying fails, are as if the bytes had
  been there at once, and all in one write.  Through a meter no more of them are taken
  than were announced.

  * `Reading.shortfall?` is why a reading does not give so many bytes, if it does not, and
    `Reading.Alike` relates readings that are the same as far as so many bytes go;
  * `seenAs` is a result with a view of the state it leaves, and `Sink.merged` the view of
    a sink that does not show the single writes;
  * `Sink.fill` is one write for all bytes that are to be stored;
  * `Sink.copy_merged` and `Sink.pours_pour`: copying comes to the same, without a meter
    and with one, and what is taken through the meter is stored (`Metered.Took`).
-/
import Mathlib.Data.List.TakeWhile
import Tarball.Metered
import Tarball.Proofs.Extension

namespace Tarball

/-! ## Results seen from outside -/

section
variable {ε σ τ α β : Type}

/-- A result with a view of the state that it leaves. -/
def seenAs (view : σ → τ) : EStateM.Result ε σ α → EStateM.Result ε τ α
  | .ok a s => .ok a (view s)
  | .error e s => .error e (view s)

variable {view : σ → τ}

/-- Results that look the same are two successes with one value or two failures with one
    cause. -/
theorem seenAs_cases {r r' : EStateM.Result ε σ α} (h : seenAs view r = seenAs view r') :
    (∃ a s t, r = .ok a s ∧ r' = .ok a t ∧ view s = view t) ∨
      ∃ e s t, r = .error e s ∧ r' = .error e t ∧ view s = view t := by
  cases r with
  | ok a s =>
    cases r' with
    | ok b t =>
      obtain ⟨rfl, hview⟩ : a = b ∧ view s = view t := by simpa [seenAs] using h
      exact .inl ⟨a, s, t, rfl, rfl, hview⟩
    | error e t => cases h
  | error e s =>
    cases r' with
    | ok b t => cases h
    | error e' t =>
      obtain ⟨rfl, hview⟩ : e = e' ∧ view s = view t := by simpa [seenAs] using h
      exact .inr ⟨e, s, t, rfl, rfl, hview⟩

/-- Steps that look the same one after the other do so together, if the later ones go by
    what can be seen. -/
theorem seenAs_bind {x y : EStateM ε σ α} {f g : α → EStateM ε σ β} {s t : σ}
    (h : seenAs view (x s) = seenAs view (y t))
    (hf : ∀ a s t, view s = view t → seenAs view (f a s) = seenAs view (g a t)) :
    seenAs view ((x >>= f) s) = seenAs view ((y >>= g) t) := by
  obtain ⟨a, s', t', hx, hy, hview⟩ | ⟨e, s', t', hx, hy, hview⟩ := seenAs_cases h
  · rw [bind_of_ok hx, bind_of_ok hy]
    exact hf a s' t' hview
  · rw [bind_of_error hx, bind_of_error hy, seenAs, seenAs, hview]

end

/-! ## Sinks seen without their writes -/

namespace Sink

/-- A sink as it would be had it been filled by a single write. -/
def merged (s : Sink) : Sink := { s with writes := [s.contents] }

variable {s t : Sink} {a b : Bytes}

theorem merged_eq_iff : s.merged = t.merged ↔
    s.contents = t.contents ∧ s.room = t.room ∧ s.refusal = t.refusal ∧ s.place = t.place := by
  simp [merged]

/-- A write that does not fit stores what the first part of it does, if that does not fit. -/
theorem merged_push_of_not_fits (h : ¬ s.fits a) : (s.push (a ++ b)).merged = (s.push a).merged := by
  cases hroom : s.room with
  | none => exact absurd (by simp [fits, hroom]) h
  | some n =>
    have hlt : n < a.length := by simpa [fits, hroom] using h
    refine merged_eq_iff.2 ⟨?_, ?_, rfl, rfl⟩
    · simp [fitting, hroom, List.take_append_of_le_length (Nat.le_of_lt hlt)]
    · simp [push, hroom]
      omega

/-- A write that fits may be made in two. -/
theorem merged_push_append (h : s.fits a) : (s.push (a ++ b)).merged = ((s.push a).push b).merged := by
  refine merged_eq_iff.2 ⟨?_, ?_, rfl, rfl⟩
  · rw [contents_push, contents_push, contents_push, List.append_assoc, fitting_of_fits h]
    cases hroom : s.room with
    | none => simp [fitting, push, hroom]
    | some n =>
      have hle : a.length ≤ n := by simpa [fits, hroom] using h
      simp [fitting, push, hroom, List.take_append, List.take_of_length_le hle]
  · cases hroom : s.room <;> simp [push, hroom, Nat.sub_sub]

theorem fits_append (h : s.fits a) : s.fits (a ++ b) = (s.push a).fits b := by
  cases hroom : s.room with
  | none => simp [fits, push, hroom]
  | some n =>
    have hle : a.length ≤ n := by simpa [fits, hroom] using h
    simp only [fits, push, hroom, Option.map_some, List.length_append]
    exact decide_eq_decide.2 (by omega)

theorem fits_of_fits_append (h : s.fits (a ++ b)) : s.fits a := by
  cases hroom : s.room with
  | none => simp [fits, hroom]
  | some n =>
    have hle : a.length + b.length ≤ n := by simpa [fits, hroom] using h
    simp only [fits, hroom, decide_eq_true_eq]
    omega

/-- **A write may be made in two**, one after the other. -/
theorem write_append (a b : Bytes) (s : Sink) :
    seenAs merged (write (a ++ b) s) = seenAs merged ((write a >>= fun _ => write b) s) := by
  by_cases hfirst : s.fits a
  · have hwrite : write a s = .ok () (s.push a) := if_pos hfirst
    rw [bind_of_ok hwrite, write, write, fits_append hfirst]
    split
    · exact congrArg (EStateM.Result.ok ()) (merged_push_append hfirst)
    · exact congrArg (EStateM.Result.error s.refusal) (merged_push_append hfirst)
  · have hwrite : write a s = .error s.refusal (s.push a) := if_neg hfirst
    have hboth : write (a ++ b) s = .error s.refusal (s.push (a ++ b)) :=
      if_neg (mt fits_of_fits_append hfirst)
    rw [bind_of_error hwrite, hboth]
    exact congrArg (EStateM.Result.error s.refusal) (merged_push_of_not_fits hfirst)

/-- How a sink was filled does not matter for what it takes. -/
theorem write_congr (h : s.merged = t.merged) (a : Bytes) :
    seenAs merged (write a s) = seenAs merged (write a t) := by
  obtain ⟨hcontents, hroom, hrefusal, hplace⟩ := merged_eq_iff.1 h
  have hfits : s.fits a = t.fits a := by rw [fits, fits, hroom]
  have hpush : (s.push a).merged = (t.push a).merged := by
    refine merged_eq_iff.2 ⟨?_, ?_, hrefusal, hplace⟩
    · rw [contents_push, contents_push, hcontents, fitting, fitting, hroom]
    · simp [push, hroom]
  rw [write, write, hfits, hrefusal]
  split
  · exact congrArg (EStateM.Result.ok ()) hpush
  · exact congrArg (EStateM.Result.error t.refusal) hpush

theorem fits_nil (s : Sink) : s.fits [] := by
  cases hroom : s.room <;> simp [fits, hroom]

theorem merged_push_nil (s : Sink) : (s.push []).merged = s.merged := by
  refine merged_eq_iff.2 ⟨?_, ?_, rfl, rfl⟩
  · rw [contents_push, fitting_of_fits s.fits_nil, List.append_nil]
  · cases hroom : s.room <;> simp [push, hroom]

theorem write_nil (s : Sink) : seenAs merged (write [] s) = .ok () s.merged := by
  rw [write, if_pos s.fits_nil]
  exact congrArg (EStateM.Result.ok ()) s.merged_push_nil

end Sink

/-! ## Readings up to so many bytes -/

namespace Reading

/-- Why a reading does not give so many bytes, if it does not: its failure, or how many
    are missing at its end. -/
def shortfall? (r : Reading) (n : Nat) : Option Cause :=
  if n ≤ r.bytes.length then none else some (r.failure.getD (.contentShort (n - r.bytes.length)))

/-- Two readings that are the same as far as so many bytes go. -/
structure Alike (n : Nat) (r r' : Reading) : Prop where
  bytes : r.bytes.take n = r'.bytes.take n
  shortfall : r.shortfall? n = r'.shortfall? n

variable {r r' : Reading} {n : Nat}

/-- Pieces do not matter. -/
theorem Alike.of_bytes (hbytes : r.bytes = r'.bytes) (hfailure : r.failure = r'.failure) :
    Alike n r r' :=
  ⟨by rw [hbytes], by rw [shortfall?, shortfall?, hbytes, hfailure]⟩

/-- What would come later does not matter. -/
theorem Alike.of_le (h : n ≤ r.bytes.length) : Alike n r { chunks := [r.bytes.take n] } := by
  have hbytes : Reading.bytes { chunks := [r.bytes.take n] } = r.bytes.take n := by
    simp [Reading.bytes]
  have hlength : (r.bytes.take n).length = n := by rw [List.length_take, Nat.min_eq_left h]
  refine ⟨?_, ?_⟩
  · rw [hbytes, List.take_take, Nat.min_self]
  · rw [shortfall?, shortfall?, hbytes, hlength, if_pos h, if_pos (Nat.le_refl n)]

/-- A reading after its first bytes falls short as before. -/
theorem shortfall?_append {first : Bytes} {rest : Reading} (hbytes : r.bytes = first ++ rest.bytes)
    (hfailure : rest.failure = r.failure) (n : Nat) :
    r.shortfall? n = rest.shortfall? (n - first.length) := by
  have hiff : n ≤ r.bytes.length ↔ n - first.length ≤ rest.bytes.length := by
    rw [hbytes, List.length_append]
    omega
  have hmissing : n - r.bytes.length = n - first.length - rest.bytes.length := by
    rw [hbytes, List.length_append, Nat.sub_sub]
  rw [shortfall?, shortfall?, hfailure, hmissing]
  exact if_congr hiff rfl rfl

end Reading

/-! ## One write for all -/

namespace Sink

/-- A step that fails if there is a cause. -/
def raise (cause? : Option Cause) : Writing Unit :=
  match cause? with
  | none => pure ()
  | some cause => throw cause

/-- So many bytes of a reading in one write; it fails afterwards if there are too few. -/
def fill (r : Reading) (n : Nat) : Writing Unit := do
  write (r.bytes.take n)
  raise (r.shortfall? n)

variable {r r' : Reading} {n : Nat} {s t : Sink}

theorem fill_eq_of_alike (h : r.Alike n r') : fill r n = fill r' n := by
  rw [fill, fill, h.bytes, h.shortfall]

theorem raise_congr (h : s.merged = t.merged) (cause? : Option Cause) :
    seenAs merged (raise cause? s) = seenAs merged (raise cause? t) := by
  cases cause? with
  | none => exact congrArg (EStateM.Result.ok ()) h
  | some cause => exact congrArg (EStateM.Result.error cause) h

theorem fill_congr (h : s.merged = t.merged) :
    seenAs merged (fill r n s) = seenAs merged (fill r n t) :=
  seenAs_bind (write_congr h _) fun _ _ _ hst => raise_congr hst _

/-- The bytes that come first may be written first. -/
theorem fill_append {first : Bytes} {rest : Reading} (hbytes : r.bytes = first ++ rest.bytes)
    (hfailure : rest.failure = r.failure) (n : Nat) (s : Sink) :
    seenAs merged (fill r n s) =
      seenAs merged ((write (first.take n) >>= fun _ => fill rest (n - first.length)) s) := by
  have hwrite : r.bytes.take n = first.take n ++ rest.bytes.take (n - first.length) := by
    rw [hbytes, List.take_append]
  rw [fill, hwrite, r.shortfall?_append hbytes hfailure]
  simp only [fill]
  rw [← bind_assoc]
  exact seenAs_bind (write_append _ _ s) fun _ _ _ hst => raise_congr hst _

/-- Nothing is written where nothing is to be. -/
theorem fill_of_take_eq_nil (h : r.bytes.take n = []) (s : Sink) :
    seenAs merged (fill r n s) = seenAs merged (raise (r.shortfall? n) s) := by
  have hnil : seenAs merged (write (r.bytes.take n) s) = seenAs merged ((pure () : Writing Unit) s) := by
    rw [h, write_nil]
    rfl
  exact seenAs_bind hnil fun _ _ _ hst => raise_congr hst _

/-- **Copying is one write for all**, in whatever pieces a reading comes. -/
theorem copy_merged (r : Reading) (n : Nat) (s : Sink) :
    seenAs merged (copy r.failure n r.chunks s) = seenAs merged (fill r n s) := by
  obtain ⟨chunks, failure⟩ := r
  induction chunks generalizing n s with
  | nil =>
    rw [fill_of_take_eq_nil (by simp [Reading.bytes])]
    cases n with
    | zero => rfl
    | succ n => rfl
  | cons chunk rest ih =>
    cases n with
    | zero =>
      rw [fill_of_take_eq_nil (by simp)]
      rfl
    | succ n =>
      have hbytes : Reading.bytes ⟨chunk :: rest, failure⟩ = chunk ++ Reading.bytes ⟨rest, failure⟩ :=
        List.flatten_cons
      refine Eq.trans ?_ (fill_append hbytes rfl (n + 1) s).symm
      refine seenAs_bind rfl fun _ s t hst => ?_
      exact (ih (n + 1 - chunk.length) s).trans (fill_congr hst)

end Sink

/-! ## With a meter -/

namespace Reading

theorem flatten_dropWhile_isEmpty (chunks : List Bytes) :
    (chunks.dropWhile List.isEmpty).flatten = chunks.flatten := by
  induction chunks with
  | nil => rfl
  | cons chunk rest ih =>
    cases chunk with
    | nil => exact ih
    | cons byte chunk => rfl

/-- Of a reading that has ended only the failure comes. -/
theorem next_of_bytes_eq_nil {r : Reading} (h : r.bytes = []) (room : Nat) :
    r.next room = match r.failure with
      | none => .ok ([], { r with chunks := [] })
      | some cause => .error cause := by
  have hnone : r.chunks.dropWhile List.isEmpty = [] := by
    rw [List.dropWhile_eq_nil_iff]
    intro chunk hmem
    rw [List.isEmpty_iff]
    exact List.flatten_eq_nil_iff.1 h chunk hmem
  cases hfailure : r.failure <;> simp only [next, hnone, hfailure]

/-- Of any other reading some bytes come, no more than there is room for, and those after
    them are left. -/
theorem next_of_bytes_ne_nil {r : Reading} (h : r.bytes ≠ []) {room : Nat} (hroom : 0 < room) :
    ∃ bytes rest, r.next room = .ok (bytes, rest) ∧ bytes ≠ [] ∧ bytes.length ≤ room ∧
      r.bytes = bytes ++ rest.bytes ∧ rest.failure = r.failure := by
  have hflatten := flatten_dropWhile_isEmpty r.chunks
  cases hpieces : r.chunks.dropWhile List.isEmpty with
  | nil =>
    rw [hpieces] at hflatten
    exact absurd hflatten.symm h
  | cons chunk rest =>
    rw [hpieces] at hflatten
    have hchunk : chunk ≠ [] := by
      have hhead := List.head_dropWhile_not List.isEmpty (l := r.chunks) (by simp [hpieces])
      simpa [hpieces] using hhead
    have hnext : r.next room = .ok (chunk.take room, ⟨chunk.drop room :: rest, r.failure⟩) := by
      rw [next, hpieces]
    refine ⟨_, _, hnext, ?_, ?_, ?_, rfl⟩
    · rw [Ne, List.take_eq_nil_iff, not_or]
      exact ⟨Nat.ne_of_gt hroom, hchunk⟩
    · exact List.length_take_le room chunk
    · rw [Reading.bytes, ← hflatten, Reading.bytes, List.flatten_cons, List.flatten_cons,
        ← List.append_assoc, List.take_append_drop]

end Reading

namespace Metered

/-- What has been taken through a meter: the first bytes of the reading, and the meter has
    gone down by as many. -/
structure Took (m : Metered) (taken : Bytes) (left : Metered) : Prop where
  bytes : m.source.bytes = taken ++ left.source.bytes
  failure : left.source.failure = m.source.failure
  remaining : taken.length + left.remaining = m.remaining

variable {m m' left : Metered}

theorem Took.refl (m : Metered) : m.Took [] m :=
  ⟨rfl, rfl, Nat.zero_add _⟩

theorem Took.trans {taken taken' : Bytes} (h : m.Took taken m') (h' : m'.Took taken' left) :
    m.Took (taken ++ taken') left where
  bytes := by rw [h.bytes, h'.bytes, List.append_assoc]
  failure := h'.failure.trans h.failure
  remaining := by rw [← h.remaining, ← h'.remaining, List.length_append, Nat.add_assoc]

/-- **What comes through a meter**: nothing when it stands at zero; when it does not, some
    bytes by which it goes down, or the reading falls short. -/
theorem next_cases {room : Nat} (hroom : 0 < room) (m : Metered) :
    (m.remaining = 0 ∧ m.next room = .ok ([], m)) ∨
      (∃ cause, m.source.bytes = [] ∧ m.source.shortfall? m.remaining = some cause ∧
        m.next room = .error cause) ∨
      ∃ bytes rest, bytes ≠ [] ∧ m.Took bytes rest ∧ m.next room = .ok (bytes, rest) := by
  by_cases hzero : m.remaining = 0
  · exact .inl ⟨hzero, if_pos (.inl hzero)⟩
  have hopen : ¬ (m.remaining = 0 ∨ room = 0) := not_or.2 ⟨hzero, Nat.ne_of_gt hroom⟩
  have hpos : 0 < min m.remaining room := Nat.lt_min.2 ⟨Nat.pos_of_ne_zero hzero, hroom⟩
  rw [next, if_neg hopen]
  by_cases hend : m.source.bytes = []
  · refine .inr (.inl ⟨m.source.failure.getD (.contentShort m.remaining), hend, ?_, ?_⟩)
    · rw [Reading.shortfall?, hend]
      exact if_neg (by simpa using hzero)
    · rw [Reading.next_of_bytes_eq_nil hend]
      cases m.source.failure <;> rfl
  · obtain ⟨bytes, rest, hnext, hbytes, hle, hsplit, hfailure⟩ :=
      Reading.next_of_bytes_ne_nil hend hpos
    have hremaining : bytes.length ≤ m.remaining := Nat.le_trans hle (Nat.min_le_left _ _)
    refine .inr (.inr ⟨bytes, ⟨rest, m.remaining - bytes.length⟩, hbytes, ?_, ?_⟩)
    · exact ⟨hsplit, hfailure, Nat.add_sub_cancel' hremaining⟩
    · rw [hnext]
      cases bytes with
      | nil => exact absurd rfl hbytes
      | cons byte bytes => rfl

end Metered

namespace Sink

/-- Copying with a meter that comes to the same as one write for all, and that stores what
    it takes. -/
structure Pours (m : Metered) (s : Sink) (r : EStateM.Result Cause (Metered × Sink) Unit) : Prop where
  outcome : seenAs (fun state => state.2.merged) r = seenAs merged (fill m.source m.remaining s)
  taken : ∃ taken, m.Took taken (stateOf r).1 ∧ (stateOf r).2.merged = (s.push taken).merged

variable {room : Metered → Nat}

theorem pour_of_error {m : Metered} {cause : Cause} (h : m.next (room m) = .error cause) (s : Sink) :
    pour room m s = .error cause (m, s) := by
  rw [pour]
  split
  · next heq =>
    rw [h] at heq
    cases heq
    rfl
  · next heq =>
    rw [h] at heq
    cases heq

theorem pour_of_ok {m rest : Metered} {bytes : Bytes} (h : m.next (room m) = .ok (bytes, rest))
    (s : Sink) :
    pour room m s = if bytes = [] then .ok () (rest, s) else
      match write bytes s with
      | .error cause s' => .error cause (rest, s')
      | .ok _ s' => pour room rest s' := by
  rw [pour]
  split
  · next heq =>
    rw [h] at heq
    cases heq
  · next heq =>
    rw [h] at heq
    cases heq
    split <;> rfl

/-- **Copying with a meter is one write for all**, and what is taken is stored. -/
theorem pours_pour (hroom : ∀ m, 0 < room m) (m : Metered) (s : Sink) : Pours m s (pour room m s) := by
  -- by induction on what is still to be taken
  induction hn : m.remaining using Nat.strongRecOn generalizing m s with
  | _ n ih =>
  obtain ⟨hzero, hnext⟩ | ⟨cause, hend, hshort, hnext⟩ | ⟨bytes, rest, hbytes, htook, hnext⟩ :=
    Metered.next_cases (hroom m) m
  · rw [pour_of_ok hnext, if_pos rfl]
    refine ⟨?_, [], .refl m, s.merged_push_nil.symm⟩
    rw [fill_of_take_eq_nil (by rw [hzero, List.take_zero]), Reading.shortfall?, hzero,
      if_pos (Nat.zero_le _)]
    rfl
  · rw [pour_of_error hnext]
    refine ⟨?_, [], .refl m, s.merged_push_nil.symm⟩
    rw [fill_of_take_eq_nil (by rw [hend, List.take_nil]), hshort]
    rfl
  · have htake : bytes.take m.remaining = bytes :=
      List.take_of_length_le (Nat.le.intro htook.remaining)
    have hlt : rest.remaining < n := hn ▸ Metered.remaining_lt hnext hbytes
    have hleft : m.remaining - bytes.length = rest.remaining := by
      have := htook.remaining
      omega
    have hfill := fill_append htook.bytes htook.failure m.remaining s
    rw [htake, hleft] at hfill
    rw [pour_of_ok hnext, if_neg hbytes]
    by_cases hfits : s.fits bytes
    · have hwrite : write bytes s = .ok () (s.push bytes) := if_pos hfits
      obtain ⟨houtcome, taken, htook', hpush⟩ := ih rest.remaining hlt rest (s.push bytes) rfl
      rw [bind_of_ok hwrite] at hfill
      rw [hwrite]
      refine ⟨houtcome.trans hfill.symm, bytes ++ taken, htook.trans htook', ?_⟩
      rw [hpush, merged_push_append hfits]
    · have hwrite : write bytes s = .error s.refusal (s.push bytes) := if_neg hfits
      rw [bind_of_error hwrite] at hfill
      rw [hwrite]
      exact ⟨hfill.symm, bytes, htook, rfl⟩

end Sink

end Tarball
