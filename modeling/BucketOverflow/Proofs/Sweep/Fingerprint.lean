import BucketOverflow.Proofs.Blocks

/-! What a fingerprint says. The bytes it is taken of can be taken apart again, so that, as far as
the digest tells byte strings apart, equal fingerprints mean the same parameters and the same values
bit for bit. -/
namespace BucketOverflow

/-- Policies are told apart by the bytes of their names. -/
theorem TailPolicy.name_bytes_inj {a b : TailPolicy}
    (h : a.name.toUTF8.toList = b.name.toUTF8.toList) : a = b := by
  have hne : TailPolicy.saturating.name.toUTF8.toList ≠ TailPolicy.literal.name.toUTF8.toList := by
    decide +kernel
  cases a with
  | saturating =>
    cases b with
    | saturating => rfl
    | literal => exact absurd h hne
  | literal =>
    cases b with
    | saturating => exact absurd h.symm hne
    | literal => rfl

namespace Sweep

/-- A sweep with a load and a probability for each of its depths. -/
structure Filled (s : Sweep) : Prop where
  loads : s.loads.length = s.params.maxDepth.toNat + 1
  probabilities : s.probabilities.length = s.params.maxDepth.toNat + 1

/-- Sweeps of the same parameters whose loads and probabilities are the same words. -/
structure SameWords (s t : Sweep) : Prop where
  params : s.params = t.params
  loads : s.loads = t.loads
  probabilities : s.probabilities = t.probabilities

variable {s t : Sweep} {p q : Params}

/-! The parts of the hashed bytes -/

/-- The numbers among the parameters. -/
def numberBytes (p : Params) : List UInt8 :=
  littleEndian 8 p.capacity.toNat ++ (littleEndian 8 p.items.toNat ++
    (littleEndian 8 p.paths.toNat ++ (littleEndian 4 p.maxDepth.toNat ++
      littleEndian 4 p.hopBudget.toNat)))

def wordBytes (words : List Binary64) : List UInt8 :=
  words.flatMap fun v => littleEndian 8 v.bits.toNat

theorem fingerprintBytes_eq (s : Sweep) : s.fingerprintBytes =
    fingerprintDomain.toUTF8.toList ++ (numberBytes s.params ++
      (s.params.tailPolicy.name.toUTF8.toList ++ wordBytes (s.loads ++ s.probabilities))) := by
  simp only [fingerprintBytes, numberBytes, wordBytes, List.append_assoc]

theorem length_numberBytes (p : Params) : (numberBytes p).length = 32 := by
  simp [numberBytes]

/-- Parameters with the same numbers differ in their policies at most. -/
theorem numberBytes_inj (h : numberBytes p = numberBytes q) :
    p = q.withTailPolicy p.tailPolicy := by
  have hwidth (k m n : ℕ) : (littleEndian k m).length = (littleEndian k n).length := by simp
  obtain ⟨hcapacity, h⟩ := List.append_inj h (hwidth 8 _ _)
  obtain ⟨hitems, h⟩ := List.append_inj h (hwidth 8 _ _)
  obtain ⟨hpaths, h⟩ := List.append_inj h (hwidth 8 _ _)
  obtain ⟨hmaxDepth, hhopBudget⟩ := List.append_inj h (hwidth 4 _ _)
  cases p
  cases q
  simp only [Params.withTailPolicy, Params.mk.injEq, and_true]
  exact ⟨littleEndian_inj64 hcapacity, littleEndian_inj64 hitems, littleEndian_inj64 hpaths,
    littleEndian_inj32 hmaxDepth, littleEndian_inj32 hhopBudget⟩

theorem length_wordBytes (words : List Binary64) : (wordBytes words).length = 8 * words.length :=
  length_flatMap_blocks (fun _ => length_littleEndian 8 _) words

theorem wordBytes_injective : Function.Injective wordBytes := by
  have hwidth (v : Binary64) : (littleEndian 8 v.bits.toNat).length = 8 := length_littleEndian 8 _
  apply flatMap_blocks_injective hwidth (by decide)
  intro v w h
  cases v
  cases w
  exact congrArg Binary64.mk (littleEndian_inj64 h)

/-! The whole -/

theorem Filled.length_words (h : s.Filled) :
    (wordBytes (s.loads ++ s.probabilities)).length = 8 * (2 * (s.params.maxDepth.toNat + 1)) := by
  rw [length_wordBytes, List.length_append, h.loads, h.probabilities, Nat.two_mul]

/-- The hashed bytes determine parameters and words. No mark parts the name of the policy from the
words or the loads from the probabilities; the depth in front of them says how many there are. -/
theorem sameWords_of_fingerprintBytes (hs : s.Filled) (ht : t.Filled)
    (h : s.fingerprintBytes = t.fingerprintBytes) : s.SameWords t := by
  rw [fingerprintBytes_eq, fingerprintBytes_eq, List.append_cancel_left_eq] at h
  obtain ⟨hnumbers, h⟩ := List.append_inj h (by rw [length_numberBytes, length_numberBytes])
  have hparams := numberBytes_inj hnumbers
  have hdepth : s.params.maxDepth = t.params.maxDepth := by
    rw [hparams]
    rfl
  obtain ⟨hname, hwords⟩ :=
    List.append_inj' h (by rw [hs.length_words, ht.length_words, hdepth])
  obtain ⟨hloads, hprobabilities⟩ :=
    List.append_inj (wordBytes_injective hwords) (by rw [hs.loads, ht.loads, hdepth])
  refine ⟨?_, hloads, hprobabilities⟩
  rw [hparams, TailPolicy.name_bytes_inj hname]
  rfl

theorem SameWords.fingerprintBytes_eq (h : s.SameWords t) :
    s.fingerprintBytes = t.fingerprintBytes := by
  rw [Sweep.fingerprintBytes_eq, Sweep.fingerprintBytes_eq, h.params, h.loads, h.probabilities]

/-- Sweeps with a load and a probability for each depth have the same hashed bytes exactly if their
parameters and words are the same. The text of a digest determines the digest; so, unless the digest
takes their bytes for each other, this is when they have the same fingerprint. -/
theorem fingerprint_eq_iff (s t : Sweep) (hs : s.Filled) (ht : t.Filled) :
    (s.fingerprintBytes = t.fingerprintBytes ↔ s.SameWords t) ∧ Function.Injective hexLower ∧
      ((sha256 s.fingerprintBytes = sha256 t.fingerprintBytes →
          s.fingerprintBytes = t.fingerprintBytes) →
        (s.fingerprint = t.fingerprint ↔ s.SameWords t)) := by
  refine ⟨⟨sameWords_of_fingerprintBytes hs ht, SameWords.fingerprintBytes_eq⟩,
    hexLower_injective, fun hsha => ?_⟩
  constructor
  · intro h
    have hdigest := hexLower_injective (String.ofList_injective h)
    exact sameWords_of_fingerprintBytes hs ht (hsha hdigest)
  · intro h
    unfold fingerprint
    rw [h.fingerprintBytes_eq]

/-- The two zeros are told apart: one value, and another fingerprint. -/
theorem fingerprint_ne_of_zeros : ∃ s t : Sweep, s.Filled ∧ t.Filled ∧ s.params = t.params ∧
    s.loads = [.zero false] ∧ t.loads = [.zero true] ∧ s.probabilities = t.probabilities ∧
      s.fingerprint ≠ t.fingerprint := by
  let s (neg : Bool) : Sweep :=
    ⟨⟨1, 1, 1, 0, 1, .saturating⟩, [.zero neg], [.zero false], [.zeroLoad]⟩
  have hs (neg : Bool) : (s neg).Filled := ⟨rfl, rfl⟩
  have hsha : sha256 (s false).fingerprintBytes ≠ sha256 (s true).fingerprintBytes := by
    decide +kernel
  obtain ⟨-, -, hiff⟩ := fingerprint_eq_iff (s false) (s true) (hs false) (hs true)
  refine ⟨s false, s true, hs false, hs true, rfl, rfl, rfl, rfl, ?_⟩
  intro h
  have hwords := ((hiff fun heq => absurd heq hsha).mp h).loads
  exact absurd hwords (by decide)

end Sweep
end BucketOverflow
