import MoveBytecode.Proofs.Address
import MoveBytecode.Proofs.Package.Edit

/-! The dependencies of a package in full length. Two of them become the same text exactly if they denote the same
address, and nothing behind the first that denotes none is touched. -/

set_option autoImplicit false

namespace MoveBytecode.Manifest

open Address

variable {old new old' new' : String} {olds news : List String} {failure : Failure}

theorem widens_iff :
    Widens old new ↔ ∃ address : Address, Denotes old address.number ∧ new = String.ofList address.display := by
  simp only [Widens, ofShortHex_iff]

theorem Widens.again (widens : Widens old new) : Widens new new := by
  obtain ⟨address, -, rfl⟩ := widens
  exact ⟨address, ofShortHex_of_ofHex (ofHex_display address), rfl⟩

theorem display_injective {address other : Address}
    (same : String.ofList address.display = String.ofList other.display) : address = other := by
  have read := ofHex_display address
  rw [same, ofHex_display] at read
  exact (Except.ok.inj read).symm

theorem Widens.eq_iff (widens : Widens old new) (widens' : Widens old' new') :
    new = new' ↔ ∃ number, Denotes old number ∧ Denotes old' number := by
  obtain ⟨address, denotes, rfl⟩ := widens_iff.mp widens
  obtain ⟨other, denotes', rfl⟩ := widens_iff.mp widens'
  constructor
  · intro same
    rw [← display_injective same] at denotes'
    exact ⟨address.number, denotes, denotes'⟩
  · rintro ⟨number, first, second⟩
    rw [eq_of_number ((denotes.unique first).trans (second.unique denotes'))]

theorem widen_append {before widened : List String} (widens : List.Forall₂ Widens before widened)
    (rest : List String) : widen (before ++ rest) = (widened ++ (widen rest).1, (widen rest).2) := by
  induction widens with
  | nil => rfl
  | cons head _ ih =>
    obtain ⟨address, read, rfl⟩ := head
    rw [List.cons_append, widen, read, ih]
    rfl

theorem widen_eq_error : widen olds = (news, .error failure) ↔ ∃ before widened refused rest error,
    olds = before ++ refused :: rest ∧ news = widened ++ refused :: rest ∧ List.Forall₂ Widens before widened ∧
      ofShortHex refused = .error error ∧ failure = ⟨[.wideningDependency refused], .address error⟩ := by
  constructor
  · intro stopped
    induction olds generalizing news with
    | nil => cases stopped
    | cons first others ih =>
      rw [widen] at stopped
      cases read : ofShortHex first with
      | error error =>
        rw [read] at stopped
        cases stopped
        exact ⟨[], [], first, others, error, rfl, rfl, .nil, read, rfl⟩
      | ok address =>
        -- The first one is widened even if a later one is refused.
        rcases after : widen others with ⟨later, outcome⟩
        rw [read, after] at stopped
        cases stopped
        obtain ⟨before, widened, refused, rest, error, rfl, rfl, widens, refusal⟩ := ih after
        exact ⟨first :: before, _ :: widened, refused, rest, error, rfl, rfl, .cons ⟨address, read, rfl⟩ widens, refusal⟩
  · rintro ⟨before, widened, refused, rest, error, rfl, rfl, widens, refusal, rfl⟩
    rw [widen_append widens, widen, refusal]

theorem widenDependencies_eq_error {manifest widened : Manifest} :
    manifest.widenDependencies = (widened, .error failure) ↔ ∃ before after refused rest error,
      manifest.dependencies = before ++ refused :: rest ∧
        widened = { manifest with dependencies := after ++ refused :: rest } ∧ List.Forall₂ Widens before after ∧
        ofShortHex refused = .error error ∧ failure = ⟨[.wideningDependency refused], .address error⟩ := by
  rw [widenDependencies]
  rcases outcome : widen manifest.dependencies with ⟨news, result⟩
  simp only [Prod.mk.injEq]
  constructor
  · rintro ⟨rfl, rfl⟩
    obtain ⟨before, after, refused, rest, error, whole, rfl, refusal⟩ := widen_eq_error.mp outcome
    exact ⟨before, after, refused, rest, error, whole, rfl, refusal⟩
  · rintro ⟨before, after, refused, rest, error, whole, rfl, refusal⟩
    have stopped := widen_eq_error.mpr ⟨before, after, refused, rest, error, whole, rfl, refusal⟩
    cases outcome.symm.trans stopped
    exact ⟨rfl, rfl⟩

/-- Every text that denotes an address can be read, as that address alone. Dependencies that are all widened keep their
places and stay as they are from then on, and two of them become one text exactly if they denote one number. Where one of
them denotes no address, those before it are widened and all others are left. -/
theorem widenDependencies_addresses :
    (∀ text number, (∃ address, ofShortHex text = .ok address ∧ address.number = number) ↔ Denotes text number) ∧
    (∀ text number, (∃ address, ofHex text = .ok address ∧ address.number = number) ↔
      HasDigits text.toList 64 number) ∧
    (∀ text address, ofHex text = .ok address → ofShortHex text = .ok address) ∧
    (∀ address : Address, ofHex (String.ofList address.display) = .ok address ∧
      ofShortHex (String.ofList address.display) = .ok address) ∧
    (∀ manifest widened : Manifest, manifest.widenDependencies = (widened, .ok ()) →
      widened = { manifest with dependencies := widened.dependencies } ∧
      List.Forall₂ (fun old new => ∃ address : Address, Denotes old address.number ∧ new = String.ofList address.display)
        manifest.dependencies widened.dependencies ∧
      widened.widenDependencies = (widened, .ok ()) ∧
      ∀ old new old' new', (old, new) ∈ manifest.dependencies.zip widened.dependencies →
        (old', new') ∈ manifest.dependencies.zip widened.dependencies →
        (new = new' ↔ ∃ number, Denotes old number ∧ Denotes old' number)) ∧
    ∀ (manifest widened : Manifest) (failure : Failure), manifest.widenDependencies = (widened, .error failure) →
      ∃ before after refused rest, manifest.dependencies = before ++ refused :: rest ∧
        widened = { manifest with dependencies := after ++ refused :: rest } ∧
        List.Forall₂ (fun old new => ∃ address : Address, Denotes old address.number ∧ new = String.ofList address.display)
          before after ∧
        (∀ number, ¬Denotes refused number) ∧
        ∃ error, ofShortHex refused = .error error ∧ failure = ⟨[.wideningDependency refused], .address error⟩ := by
  refine ⟨fun _ _ => exists_ofShortHex_iff, fun _ _ => ?_, fun _ _ => ofShortHex_of_ofHex, fun address => ?_,
    fun manifest widened done => ?_, fun manifest widened failure failed => ?_⟩
  · simp only [ofHex_eq_ok]
    exact exists_ofHex?_iff
  · exact ⟨ofHex_display address, ofShortHex_of_ofHex (ofHex_display address)⟩
  · obtain ⟨frame, widens⟩ := widenDependencies_eq_ok.mp done
    refine ⟨frame, widens.imp fun _ _ => widens_iff.mp, ?_, fun old new old' new' here there => ?_⟩
    · refine widenDependencies_eq_ok.mpr ⟨rfl, List.forall₂_same.mpr fun new member => ?_⟩
      obtain ⟨old, -, wider⟩ := Steps.exists_of_mem_right widens member
      exact wider.again
    · exact (List.forall₂_zip widens here).eq_iff (List.forall₂_zip widens there)
  · obtain ⟨before, after, refused, rest, error, whole, rfl, widens, refusal, same⟩ :=
      widenDependencies_eq_error.mp failed
    refine ⟨before, after, refused, rest, whole, rfl, widens.imp fun _ _ => widens_iff.mp, fun number denotes => ?_,
      error, refusal, same⟩
    -- A text that denotes a number could have been read.
    obtain ⟨address, read, -⟩ := exists_ofShortHex_iff.mpr denotes
    cases refusal.symm.trans read

def sharing : Manifest := ⟨[], ["0X1a", "2", "001A"], [], []⟩

def marked : Manifest := ⟨[], ["1", "0x0x1", "2"], [], []⟩

theorem widenDependencies_sharing :
    (∃ widened, sharing.widenDependencies = (widened, .ok ()) ∧
      widened.widenDependencies = (widened, .ok ()) ∧ ∃ number, Denotes "0X1a" number ∧ Denotes "001A" number) ∧
    (∃ widened failure, marked.widenDependencies = (widened, .error failure)) ∧
    ∀ number, ¬Denotes "0x0x1" number := by
  obtain ⟨-, -, -, -, succeeds, fails⟩ := widenDependencies_addresses
  let low (byte : UInt8) : Address := ⟨List.replicate 31 0 ++ [byte], rfl⟩
  let full (byte : UInt8) : String := String.ofList (low byte).display
  constructor
  · have first : Widens "0X1a" (full 0x1A) := ⟨low 0x1A, by decide +kernel, rfl⟩
    have second : Widens "2" (full 2) := ⟨low 2, by decide +kernel, rfl⟩
    have third : Widens "001A" (full 0x1A) := ⟨low 0x1A, by decide +kernel, rfl⟩
    have done : sharing.widenDependencies = (⟨[], [full 0x1A, full 2, full 0x1A], [], []⟩, .ok ()) :=
      widenDependencies_eq_ok.mpr ⟨rfl, .cons first (.cons second (.cons third .nil))⟩
    obtain ⟨-, -, again, pairs⟩ := succeeds _ _ done
    exact ⟨_, done, again, (pairs "0X1a" _ "001A" _ (.head _) (.tail _ (.tail _ (.head _)))).mp rfl⟩
  · have first : Widens "1" (full 1) := ⟨low 1, by decide +kernel, rfl⟩
    have unread : ofShortHex "0x0x1" = .error ⟨String.ofList (filled "0x0x1".toList)⟩ := by decide +kernel
    have stopped := widenDependencies_eq_error.mpr
      ⟨["1"], [full 1], "0x0x1", ["2"], _, (rfl : marked.dependencies = _), rfl, .cons first .nil, unread, rfl⟩
    obtain ⟨_, _, refused, _, -, -, -, none, _, -, named⟩ := fails _ _ _ stopped
    cases named
    exact ⟨⟨_, _, stopped⟩, none⟩

end MoveBytecode.Manifest
