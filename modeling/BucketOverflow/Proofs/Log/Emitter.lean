import BucketOverflow.Log.Emitter
import BucketOverflow.Proofs.Files

/-! What an emitter has written. The bytes in its file and the ones it still holds are, at every
moment, the text of the entries that were emitted; no other file is touched. -/
namespace BucketOverflow
open Files

variable {em em' em'' : Emitter} {fs fs' fs'' : Files} {p : Place} {old : ByteArray} {text : String}

namespace Files

/-- Bytes laid over a file from its end on are added to it. -/
theorem overlay_size (old new : ByteArray) : overlay old old.size new = old ++ new := by
  have hgap : old ++ ⟨Array.replicate (old.size - old.size) 0⟩ = old := by
    rw [Nat.sub_self]
    exact ByteArray.append_empty
  have htail : old.extract (old.size + new.size) old.size = .empty := by
    rw [ByteArray.extract_eq_empty_iff]
    omega
  simp only [overlay, hgap, ByteArray.extract_zero_size, htail, ByteArray.append_empty]

theorem node?_writeAt (hp : p ≠ []) (h : fs.node? p = some (.file old)) (new : ByteArray) :
    (fs.writeAt p old.size new).node? p = some (.file (old ++ new)) := by
  simp only [writeAt, h, overlay_size, node?_put fs hp, if_true]

theorem grows_writeAt (hp : p ≠ []) (offset : ℕ) (new : ByteArray) :
    Grows [p] fs (fs.writeAt p offset new) := by
  unfold writeAt
  split
  · rename_i hn
    exact grows_put_file hp (not_isDirectory_of_file hn) _
  · exact (grows_refl fs).mono (List.nil_subset _)

end Files

namespace Emitter

/-! Places -/

/-- Work of an emitter, on its own file alone and with its numbering kept. -/
structure Moves (em : Emitter) (fs : Files) (em' : Emitter) (fs' : Files) : Prop where
  component : em'.component = em.component
  runId : em'.runId = em.runId
  assigned : em'.assigned = em.assigned
  sink : em'.sink = em.sink
  grows : Grows em.sink.toList fs fs'

theorem moves_keep (em : Emitter) (fs : Files) (pending : ByteArray) :
    Moves em fs { em with pending } fs :=
  ⟨rfl, rfl, rfl, rfl, (grows_refl fs).mono (List.nil_subset _)⟩

theorem Moves.trans (h : Moves em fs em' fs') (h' : Moves em' fs' em'' fs'') :
    Moves em fs em'' fs'' where
  component := h'.component.trans h.component
  runId := h'.runId.trans h.runId
  assigned := h'.assigned.trans h.assigned
  sink := h'.sink.trans h.sink
  grows := by
    have hgrows := h'.grows
    rw [h.sink] at hgrows
    exact (h.grows.trans hgrows).mono (by simp)

theorem moves_send (hroot : em.sink ≠ some []) (fs : Files) (new : ByteArray) :
    Moves em fs (em.send fs new).1 (em.send fs new).2 := by
  refine ⟨rfl, rfl, rfl, rfl, ?_⟩
  unfold send
  cases hs : em.sink with
  | none => exact grows_refl fs
  | some p => exact grows_writeAt (fun hp => hroot (hp ▸ hs)) _ _

theorem moves_flush (hroot : em.sink ≠ some []) (fs : Files) :
    Moves em fs (em.flush fs).1 (em.flush fs).2 := by
  have hempty : ({ em with pending := .empty } : Emitter).sink ≠ some [] := hroot
  exact (moves_keep em fs .empty).trans (moves_send hempty fs em.pending)

theorem moves_write (hroot : em.sink ≠ some []) (fs : Files) (new : ByteArray) :
    Moves em fs (em.write fs new).1 (em.write fs new).2 := by
  have hflush := moves_flush hroot fs
  have hroot' : (em.flush fs).1.sink ≠ some [] := hflush.sink ▸ hroot
  unfold write
  dsimp only
  split_ifs
  · exact moves_keep em fs _
  · exact hflush.trans (moves_send hroot' _ _)
  · exact moves_send hroot fs new
  · exact hflush.trans (moves_keep _ _ _)
  · exact moves_keep em fs _

theorem sink_fill (em : Emitter) (e : LogEntry) : (em.fill e).2.sink = em.sink := by
  unfold fill
  split_ifs <;> rfl

/-- An entry that is emitted touches no file but the emitter's. -/
theorem moves_emit (hroot : em.sink ≠ some []) (fs : Files) (e : LogEntry) :
    Moves (em.fill e).2 fs (em.emit fs e).2.1 (em.emit fs e).2.2 := by
  have hfill : (em.fill e).2.sink ≠ some [] := (sink_fill em e).symm ▸ hroot
  have hline := moves_write hfill fs (em.fill e).1.line.toUTF8
  unfold Emitter.emit
  dsimp only
  exact hline.trans (moves_write (hline.sink ▸ hfill) _ _)

/-! Texts -/

/-- The emitter's file and the bytes that it holds back are a text. -/
structure Holds (em : Emitter) (fs : Files) (p : Place) (text : String) : Prop where
  sink : em.sink = some p
  not_root : p ≠ []
  bytes : ∃ old, fs.node? p = some (.file old) ∧ old.size = em.sent ∧
    old ++ em.pending = text.toUTF8

theorem Holds.sink_ne (h : em.Holds fs p text) : em.sink ≠ some [] := by
  rw [h.sink]
  exact fun hp => h.not_root (Option.some.inj hp)

/-- A text that is kept back for later. -/
theorem Holds.keep (h : em.Holds fs p text) (s : String) :
    { em with pending := em.pending ++ s.toUTF8 }.Holds fs p (text ++ s) := by
  obtain ⟨old, hnode, hsize, hbytes⟩ := h.bytes
  refine ⟨h.sink, h.not_root, old, hnode, hsize, ?_⟩
  rw [← ByteArray.append_assoc, hbytes]
  exact String.toByteArray_append.symm

/-- A text that is sent past an empty buffer. -/
theorem Holds.send (h : em.Holds fs p text) (hempty : em.pending = .empty) (s : String) :
    (em.send fs s.toUTF8).1.Holds (em.send fs s.toUTF8).2 p (text ++ s) := by
  obtain ⟨old, hnode, hsize, hbytes⟩ := h.bytes
  rw [hempty, ByteArray.append_empty] at hbytes
  refine ⟨h.sink, h.not_root, old ++ s.toUTF8, ?_, ?_, ?_⟩
  · simp only [Emitter.send, h.sink, ← hsize]
    exact node?_writeAt h.not_root hnode _
  · simp only [Emitter.send, ByteArray.size_append, hsize]
  · rw [Emitter.send, hempty, ByteArray.append_empty, hbytes]
    exact String.toByteArray_append.symm

/-- Nothing is held back after a flush. -/
theorem Holds.flush (h : em.Holds fs p text) :
    (em.flush fs).1.Holds (em.flush fs).2 p text ∧ (em.flush fs).1.pending = .empty := by
  obtain ⟨old, hnode, hsize, hbytes⟩ := h.bytes
  refine ⟨⟨h.sink, h.not_root, old ++ em.pending, ?_, ?_, ?_⟩, rfl⟩
  · simp only [Emitter.flush, Emitter.send, h.sink, ← hsize]
    exact node?_writeAt h.not_root hnode _
  · simp only [Emitter.flush, Emitter.send, ByteArray.size_append, hsize]
  · rw [hbytes]
    exact ByteArray.append_empty

/-- The file has the whole text after a flush. -/
theorem Holds.node?_flush (h : em.Holds fs p text) :
    (em.flush fs).2.node? p = some (.file text.toUTF8) := by
  obtain ⟨hflush, hempty⟩ := h.flush
  obtain ⟨old, hnode, -, hbytes⟩ := hflush.bytes
  rw [hempty, ByteArray.append_empty] at hbytes
  rw [hnode, hbytes]

theorem Holds.read_flush (h : em.Holds fs p text) {path : String} (hnames : Names fs path p) :
    (em.flush fs).2.read path = .ok text.toUTF8 := by
  have hsent := (moves_flush h.sink_ne fs).grows.names hnames
  exact hsent.read h.node?_flush

/-- A text that is written follows what was written before, whatever the buffer does. -/
theorem Holds.write (h : em.Holds fs p text) (s : String) :
    (em.write fs s.toUTF8).1.Holds (em.write fs s.toUTF8).2 p (text ++ s) := by
  obtain ⟨hflush, hempty⟩ := h.flush
  unfold Emitter.write
  dsimp only
  split_ifs with hroom hlarge hover
  · exact h.keep s
  · exact hflush.send hempty s
  · have hnone : em.pending = .empty := by
      rw [← ByteArray.size_eq_zero_iff]
      unfold bufferSize at *
      omega
    exact h.send hnone s
  · exact hflush.keep s
  · exact h.keep s

/-- An entry is written as one line behind the others. -/
theorem Holds.emit (h : em.Holds fs p text) (e : LogEntry) :
    (em.emit fs e).2.1.Holds (em.emit fs e).2.2 p (text ++ ((em.fill e).1.line ++ "\n")) := by
  have hfill : (em.fill e).2.Holds fs p text := by
    unfold fill
    split_ifs
    · exact ⟨h.sink, h.not_root, h.bytes⟩
    · exact h
  have hfeed := (hfill.write (em.fill e).1.line).write "\n"
  rw [String.append_assoc] at hfeed
  unfold Emitter.emit
  dsimp only
  exact hfeed

/-- An emitter to a file starts with nothing in it. -/
theorem created_of_toFile {path component runId : String}
    (h : toFile fs path component runId = .ok (em, fs')) :
    ∃ p, Created fs path p fs' ∧ em = ⟨component, runId, 0, some p, 0, .empty⟩ := by
  unfold toFile at h
  cases hc : fs.create path with
  | error e => simp [hc, bind, Except.bind] at h
  | ok r =>
    simp only [hc, bind, Except.bind, pure, Except.pure, Except.ok.injEq, Prod.mk.injEq] at h
    obtain ⟨rfl, rfl⟩ := h
    exact ⟨r.1, created_of_create hc, rfl⟩

theorem holds_of_created {path : String} (component runId : String) (h : Created fs path p fs') :
    (⟨component, runId, 0, some p, 0, .empty⟩ : Emitter).Holds fs' p "" :=
  ⟨rfl, h.not_root, _, h.node?, rfl, ByteArray.append_empty⟩

end Emitter
end BucketOverflow
