import MoveBytecode.Proofs.Module.RoundTrip
import MoveBytecode.Proofs.Reader.Extent

/-! Where a module ends is told by its bytes. Cut short they ask for more, continued they are refused, and in both cases
before any table is read; so no module's bytes are the start of another's. -/

set_option autoImplicit false

namespace MoveBytecode

open Reader

namespace Container

def trailing (count : Nat) : DecodeError := .gap (.afterModule count)

theorem needsAll_readHeader : NeedsAll DecodeError.read readHeader :=
  ((needsAll_bytes 4).mapError DecodeError.read).bind ((reads_bytes 4).mapError _) fun _ =>
    .unless <| ((needsAll_littleEndian 4).mapError DecodeError.read).bind ((reads_littleEndian 4).mapError _) fun _ =>
      needsAll_ofOption _ _

theorem needsAll_readEntry (seen : List TableKind) : NeedsAll DecodeError.read (readEntry seen) :=
  (needsAll_byte.mapError DecodeError.read).bind (reads_byte.mapError _) fun _ =>
    (needsAll_ofOption _ _).bind (reads_ofOption _ _) fun kind =>
    .unless <| (needsAll_uleb32.mapError DecodeError.read).bind (reads_uleb32.mapError _) fun offset =>
      (needsAll_uleb32.mapError DecodeError.read).map (reads_uleb32.mapError _) (Entry.mk kind offset)

theorem needsAll_readEntries (count : Nat) (seen : List TableKind) :
    NeedsAll DecodeError.read (readEntries count seen) := by
  induction count generalizing seen with
  | zero => exact needsAll_pure []
  | succ count ih =>
    exact (needsAll_readEntry seen).bind (reads_readEntry seen) fun entry =>
      (ih (entry.kind :: seen)).map (reads_readEntries count (entry.kind :: seen)) (List.cons entry)

theorem needsAll_present : NeedsAll DecodeError.read (some <$> uleb32.mapError DecodeError.read) := by
  rw [map_eq_pure_bind]
  exact (needsAll_uleb32.mapError DecodeError.read).map (reads_uleb32.mapError _) some

theorem needsAll_read : NeedsAll DecodeError.read read :=
  needsAll_readHeader.bind reads_readHeader fun header =>
  (needsAll_uleb32.mapError DecodeError.read).bind (reads_uleb32.mapError _) fun count =>
  (needsAll_readEntries count []).bind (reads_readEntries count []) fun entries =>
  (needsAll_ofExcept id (areaLength entries)).bind (reads_ofExcept id _) fun length =>
  ((needsAll_bytes length).mapError DecodeError.read).bind ((reads_bytes length).mapError _) fun area =>
    have last (handle : Option Nat) := needsAll_return (Container.mk header entries area handle) trailing
    .ite (needsAll_present.bind reads_present last) ((needsAll_pure none).bind (reads_pure none) last)

theorem refusesMore_read : RefusesMore trailing read :=
  RefusesMore.bind reads_readHeader fun header =>
  RefusesMore.bind (reads_uleb32.mapError _) fun count =>
  RefusesMore.bind (reads_readEntries count []) fun entries =>
  RefusesMore.bind (reads_ofExcept id _) fun length =>
  RefusesMore.bind ((reads_bytes length).mapError _) fun area =>
    have last (handle : Option Nat) := refusesMore_return (Container.mk header entries area handle) trailing
    .ite (.bind reads_present last) (.bind (reads_pure none) last)

theorem read_of_ofBytes {bytes : Bytes} {container : Container} (framed : ofBytes bytes = .ok container) :
    read ⟨0, bytes⟩ = .ok container ⟨bytes.length, []⟩ := by
  refine (exhausts_read _ _ _).mpr ⟨ofBytes_eq_ok.mp framed, ?_⟩
  simp

end Container

namespace Module

theorem decode_of_framing_error {bytes : Bytes} {error : DecodeError} {next : Cursor}
    (failed : Container.read ⟨0, bytes⟩ = .error error next) : decode bytes = .error error := by
  have unframed : Container.ofBytes bytes = .error error := by
    rw [Container.ofBytes, Reader.value, Reader.start, failed]
  rw [decode, unframed]
  rfl

/-- The bytes of a module end where it does: with fewer of them there is an attempt to read beyond their end, and any
others behind them are left over. -/
theorem decode_delimited {bytes : Bytes} {module : Module} (read : decode bytes = .ok module) :
    (∀ length < bytes.length, ∃ needed place remaining,
      decode (bytes.take length) = .error (.read (.outOfBounds needed place remaining)) ∧
        place + remaining = length ∧ remaining < needed) ∧
    (∀ more, more ≠ [] → decode (bytes ++ more) = .error (.gap (.afterModule more.length))) ∧
    ∀ longer other, decode longer = .ok other → bytes <+: longer → longer = bytes := by
  obtain ⟨container, framed, _⟩ := Steps.bind_eq_ok.mp read
  have taken := Container.read_of_ofBytes framed
  have refused : ∀ more, more ≠ [] → decode (bytes ++ more) = .error (.gap (.afterModule more.length)) := by
    intro more beyond
    obtain ⟨next, failed⟩ := Container.refusesMore_read 0 bytes more container _ beyond taken
    exact decode_of_framing_error failed
  refine ⟨fun length short => ?_, refused, fun longer other read' begins => ?_⟩
  · have cut : bytes.drop length ≠ [] := by simpa using short
    rw [← List.take_append_drop length bytes] at taken
    obtain ⟨needed, place, remaining, next, failed, ends, lacks⟩ :=
      Container.needsAll_read 0 (bytes.take length) (bytes.drop length) container _ cut taken
    refine ⟨needed, place, remaining, decode_of_framing_error failed, ?_, lacks⟩
    simpa [Nat.min_eq_left (Nat.le_of_lt short)] using ends
  · obtain ⟨more, rfl⟩ := begins
    by_cases none : more = []
    · simp [none]
    · simp [refused more none] at read'

theorem decode_delimited_coin : decode coinBytes = .ok coin ∧
    (∃ needed place remaining, decode (coinBytes.take 60) = .error (.read (.outOfBounds needed place remaining)) ∧
      place + remaining = 60 ∧ remaining < needed) ∧
    decode (coinBytes ++ [0, 0]) = .error (.gap (.afterModule 2)) := by
  have read : decode coinBytes = .ok coin := by decide +kernel
  obtain ⟨shorter, longer, _⟩ := decode_delimited read
  exact ⟨read, shorter 60 (by decide), longer [0, 0] (by decide)⟩

example : decode (coinBytes.take 60) = .error (.read (.outOfBounds 59 24 36)) := by decide +kernel

end Module

end MoveBytecode
