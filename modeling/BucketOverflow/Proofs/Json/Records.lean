import BucketOverflow.Proofs.Json.Reads

/-! Records on laid out objects. The fields of an object take a record under construction from state
to state, each slot reading its own value. -/
namespace BucketOverflow.Json
open Text

variable {α σ : Type} {reader : Reader α} {j : Json} {a : α} {b cs rest : List Char}
  {member : σ → String → Reader σ} {s x : σ} {fields : List (String × Json)}

/-! Fields -/

/-- What stands behind a key takes a state to the next. -/
def ReadsMember (member : σ → String → Reader σ) (s : σ) (k : String) (j : Json) (s' : σ) : Prop :=
  ∀ b₁ b₂ cs rest, Blank b₁ → Blank b₂ → Written j cs → Stops rest →
    member s k (b₁ ++ ':' :: (b₂ ++ (cs ++ rest))) = .ok (s', rest)

/-- Fields take a state to the last. -/
inductive ReadsMembers (member : σ → String → Reader σ) : σ → List (String × Json) → σ → Prop
  | nil (s : σ) : ReadsMembers member s [] s
  | cons {s s' s'' : σ} {k : String} {j : Json} {fields : List (String × Json)} :
    ReadsMember member s k j s' → ReadsMembers member s' fields s'' →
    ReadsMembers member s ((k, j) :: fields) s''

theorem length_quote_pos (k : String) : 0 < (quote k).length := Nat.succ_pos _

theorem skipSpace_quote (hb : Blank b) (k : String) (cs : List Char) :
    skipSpace (b ++ (quote k ++ cs)) = quote k ++ cs := by
  rw [quote_append, skipSpace_blank hb rfl]

/-- Fields, one character or more for each, bound the turns that are needed. -/
theorem WrittenFields.length_le (h : WrittenFields fields cs) (rest : List Char) :
    fields.length ≤ (skipSpace (cs ++ rest)).length := by
  induction fields generalizing cs with
  | nil => cases h
  | cons f fields ih =>
    cases h with
    | @last k _ _ _ _ _ _ hb _ _ _ _ =>
      have := length_quote_pos k
      rw [List.append_assoc, List.append_assoc, skipSpace_quote hb]
      simp only [List.length_cons, List.length_nil, List.length_append]
      omega
    | @cons k _ _ _ _ _ _ _ _ hb _ _ _ _ hrest =>
      have := length_quote_pos k
      have := (ih hrest).trans (length_skipSpace_le _)
      rw [List.append_assoc, List.append_assoc, skipSpace_quote hb]
      simp only [List.length_cons, List.length_append] at *
      omega

/-- Fields begin with a key. -/
theorem WrittenFields.opens (h : WrittenFields fields cs) (rest : List Char) :
    ∃ tail, skipSpace (cs ++ rest) = '"' :: tail := by
  cases h with
  | last hb _ _ _ _ =>
    rw [List.append_assoc, List.append_assoc, skipSpace_quote hb]
    exact ⟨_, rfl⟩
  | cons hb _ _ _ _ _ =>
    rw [List.append_assoc, List.append_assoc, skipSpace_quote hb]
    exact ⟨_, rfl⟩

theorem colon_append (hb : Blank b) (cs : List Char) : colon (b ++ ':' :: cs) = .ok ((), cs) := by
  have hcolon : isSpace ':' = false := rfl
  simp only [colon, skipSpace_blank hb hcolon]

theorem membersFrom_written (h : ReadsMembers member s fields x) (hw : WrittenFields fields cs)
    {bound : List Char} (hb : fields.length ≤ bound.length) (rest : List Char) :
    membersFrom member bound s (skipSpace (cs ++ rest)) = .ok (x, '}' :: rest) := by
  have hcomma : isSpace ',' = false := rfl
  have hclose : isSpace '}' = false := rfl
  induction h generalizing cs bound with
  | nil => cases hw
  | @cons s s' s'' k j fields hj htail ih =>
    obtain ⟨c, bound, rfl⟩ : ∃ c xs, bound = c :: xs := by
      cases bound with
      | nil => simp at hb
      | cons c xs => exact ⟨c, xs, rfl⟩
    cases hw with
    | last hb₀ hb₁ hb₂ hw hb' =>
      cases htail
      have hmember := hj _ _ _ _ hb₁ hb₂ hw (hb'.stops (stops_brace rest))
      rw [List.append_assoc, List.append_assoc, skipSpace_quote hb₀, quote_append]
      simp only [List.append_assoc, List.cons_append, List.nil_append] at hmember ⊢
      simp only [membersFrom, stringBody_escape, bind, Except.bind, hmember,
        skipSpace_blank hb' hclose]
    | @cons _ _ _ _ _ _ _ _ rest' hb₀ hb₁ hb₂ hw hb' hrest =>
      obtain ⟨tail, hfirst⟩ := hrest.opens rest
      have hmember := hj _ _ _ _ hb₁ hb₂ hw (hb'.stops (stops_comma (rest' ++ rest)))
      have hbound : fields.length ≤ bound.length := by simpa using hb
      have hstep := ih hrest hbound
      rw [List.append_assoc, List.append_assoc, skipSpace_quote hb₀, quote_append]
      simp only [List.append_assoc, List.cons_append] at hmember ⊢
      simp only [membersFrom, stringBody_escape, bind, Except.bind, hmember,
        skipSpace_blank hb' hcomma]
      rw [hfirst] at hstep ⊢
      exact hstep

theorem members_written (h : ReadsMembers member s fields x) (hw : Written (.obj fields) cs) :
    ∃ tail, cs = '{' :: tail ∧
      ∀ rest, members member s (tail ++ rest) = .ok (x, '}' :: rest) := by
  have hclose : isSpace '}' = false := rfl
  cases hw with
  | emptyObj hb =>
    cases h
    refine ⟨_, rfl, fun rest => ?_⟩
    simp only [members, List.append_assoc, List.cons_append, List.nil_append,
      skipSpace_blank hb hclose]
  | obj hfields =>
    refine ⟨_, rfl, fun rest => ?_⟩
    obtain ⟨tail, hfirst⟩ := hfields.opens rest
    have hread := membersFrom_written h hfields (hfields.length_le rest) rest
    unfold members
    rw [hfirst] at hread ⊢
    exact hread

/-! Slots and records -/

theorem bind_of_ok {ε γ δ : Type} {m : Except ε γ} {v : γ} {f : γ → Except ε δ} (h : m = .ok v) :
    (m >>= f) = f v := by
  rw [h]
  rfl

/-- A field of a known name that is not filled yet; `keep` says what becomes of the value. -/
theorem readsMember_slot {slots : List (Slot σ)} {slot : Slot σ} {k : String}
    (hfind : slots.find? (·.name = k) = some slot) (hfree : slot.filled s = false)
    (h : Reads reader j a)
    (keep : ∀ cs rest, reader cs = .ok (a, rest) → slot.read s cs = .ok (x, rest)) :
    ReadsMember (slotMember slots) s k j x := by
  intro b₁ b₂ cs rest hb₁ hb₂ hw hr
  unfold slotMember
  rw [hfind]
  simp only [hfree, Bool.false_eq_true, if_false, colon_append hb₁, bind, Except.bind]
  exact keep _ _ (h b₂ cs rest hb₂ hw hr)

/-- Reading lifts to records. -/
theorem reads_record {schema : Schema σ α}
    (h : ReadsMembers (slotMember schema.slots) schema.empty fields x)
    (hfinish : schema.finish x = .ok a) : Reads (record schema) (.obj fields) a := by
  intro b cs rest hb hw _
  have hopen : isSpace '{' = false := rfl
  have hclose : isSpace '}' = false := rfl
  obtain ⟨tail, rfl, hread⟩ := members_written h hw
  have hbehind : behindClose '}' ('}' :: rest) = rest := by
    simp only [behindClose, skipSpace_cons hclose, if_true]
  simp only [record, List.cons_append, skipSpace_blank hb hopen, hread, bind, Except.bind,
    hbehind, finishAt, hfinish]

/-! Whole texts -/

/-- A reader that reads a value reads any text that lays it out. -/
theorem Reads.ofWritten (h : Reads reader j a) (hw : Written j cs) :
    readText reader (String.ofList cs) = .ok a := by
  have hread := h [] cs [] blank_nil hw stops_nil
  rw [List.nil_append, List.append_nil] at hread
  simp only [readText, String.toList_ofList, hread, finish, bind, Except.bind, skipSpace,
    List.dropWhile_nil]
  rfl

theorem Reads.toPretty (h : Reads reader j a) : readText reader j.toPretty = .ok a :=
  h.ofWritten (written_pretty 0 j)

theorem Reads.toCompact (h : Reads reader j a) : readText reader j.toCompact = .ok a :=
  h.ofWritten (written_compact j)

end BucketOverflow.Json
