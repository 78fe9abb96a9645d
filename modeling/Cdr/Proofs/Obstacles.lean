import Cdr.Proofs.WriterImage

/-! # Which obstacles an image meets

What is in the way of an image is in the way of one of its parts, or is a count or a length that
does not fit where it is to be written. So a property of obstacles is shown of a whole image part by
part.
-/

namespace Cdr

namespace Image

/-- Whatever is in the way of the image, at any position, is so. -/
def MeetsOnly (image : Image) (P : Obstacle → Prop) : Prop :=
  ∀ x obstacle, image x = .error obstacle → P obstacle

variable {f g : Image} {P : Obstacle → Prop}

theorem meetsOnly_bytes (b : List UInt8) : MeetsOnly (bytes b) P := nofun

theorem meetsOnly_zeros (alignment : Nat) : MeetsOnly (zeros alignment) P := nofun

theorem meetsOnly_fail {obstacle : Obstacle} (h : P obstacle) : MeetsOnly (fail obstacle) P := by
  intro x other hother
  cases hother
  exact h

theorem meetsOnly_andThen (hf : MeetsOnly f P) (hg : MeetsOnly g P) :
    MeetsOnly (f.andThen g) P := by
  intro x obstacle h
  cases hfirst : f x with
  | error other =>
    rw [andThen_error g hfirst] at h
    cases h
    exact hf x _ hfirst
  | ok a =>
    cases hsecond : g (x + a.length) with
    | error other =>
      rw [andThen_error_right hfirst hsecond] at h
      cases h
      exact hg _ _ hsecond
    | ok b =>
      rw [andThen_ok hfirst hsecond] at h
      cases h

theorem meetsOnly_each {α : Type} {f : α → Image} {items : List α}
    (h : ∀ item ∈ items, MeetsOnly (f item) P) : MeetsOnly (each f items) P := by
  induction items with
  | nil => exact meetsOnly_bytes []
  | cons item rest ih =>
    obtain ⟨hitem, hrest⟩ := List.forall_mem_cons.1 h
    exact meetsOnly_andThen hitem (ih hrest)

theorem meetsOnly_checked {check : Except WireError Unit} (hf : MeetsOnly f P)
    (hcheck : ∀ fault, check = .error fault → P (.refused fault)) :
    MeetsOnly (checked check f) P := by
  cases check with
  | ok _ => exact hf
  | error fault => exact meetsOnly_fail (hcheck fault rfl)

theorem meetsOnly_headed (e : Encoding) (limit : Nat) (header : Nat → Nat)
    {tooLong : Nat → Obstacle} (hlong : ∀ n, limit ≤ n → P (tooLong n)) (hf : MeetsOnly f P) :
    MeetsOnly (headed e limit header tooLong f) P := by
  intro x obstacle h
  cases hbody : f (x + padding x 4 + 4) with
  | error other =>
    rw [headed_error hbody] at h
    cases h
    exact hf _ _ hbody
  | ok b =>
    by_cases hlimit : b.length < limit
    · rw [headed_ok hbody hlimit] at h
      cases h
    · rw [headed_tooLong hbody hlimit] at h
      cases h
      exact hlong _ (Nat.le_of_not_lt hlimit)

end Image

namespace Encoding

open Image

variable (e : Encoding) {P : Obstacle → Prop}

theorem meetsOnly_countImage {n : Nat} (hlong : 0x100000000 ≤ n → P (.longCount n)) :
    MeetsOnly (e.countImage n) P := by
  unfold countImage wordImage
  split
  next => exact meetsOnly_andThen (meetsOnly_zeros 4) (meetsOnly_bytes _)
  next h => exact meetsOnly_fail (hlong (Nat.le_of_not_lt h))

theorem meetsOnly_scalarImage {field : String} {p : Primitive} {v : Value}
    (hwide : ∀ s c, v = .scalar s → s.wideChar? = some c → P (.wideChar c))
    (hother : ∀ found, P (.refused (.mismatch field p.idlName found))) :
    MeetsOnly (e.scalarImage field p v) P := by
  cases v with
  | scalar s =>
    simp only [scalarImage]
    split
    · cases hs : s.wideChar? with
      | some c => exact meetsOnly_fail (hwide s c rfl hs)
      | none => exact meetsOnly_andThen (meetsOnly_zeros _) (meetsOnly_bytes _)
    · exact meetsOnly_fail (hother _)
  | _ => exact meetsOnly_fail (hother _)

theorem meetsOnly_runImage {field : String} {p : Primitive}
    (hother : ∀ found, P (.refused (.mismatch field p.idlName found))) (items : List Value) :
    MeetsOnly (e.runImage field p items) P := by
  induction items with
  | nil => exact meetsOnly_bytes []
  | cons v vs ih =>
    cases v with
    | scalar s =>
      simp only [runImage]
      split
      · exact meetsOnly_andThen (meetsOnly_bytes _) ih
      · exact meetsOnly_fail (hother _)
    | _ => exact meetsOnly_fail (hother _)

theorem meetsOnly_elementsImage {ofItem : Value → Image} {items : List Value} {field : String}
    {run : Option Primitive} (hitem : ∀ v ∈ items, MeetsOnly (ofItem v) P)
    (hother : ∀ p found, P (.refused (.mismatch field p found))) :
    MeetsOnly (e.elementsImage ofItem field run items) P := by
  unfold elementsImage
  split
  · split
    · exact meetsOnly_bytes []
    · exact meetsOnly_andThen (meetsOnly_zeros _) (e.meetsOnly_runImage (hother _) items)
  · exact meetsOnly_each hitem

theorem meetsOnly_delimitedImage {body : Image} {extensibility : Extensibility}
    (hlong : ∀ n, 0x100000000 ≤ n → P (.longBody n)) (h : MeetsOnly body P) :
    MeetsOnly (e.delimitedImage extensibility body) P := by
  unfold delimitedImage
  split
  · exact meetsOnly_headed e _ _ hlong h
  · exact h

end Encoding

end Cdr
