import Mla.Serialize

/-!
# The stack of writing layers

A layer writes to the layer below it. `finalize` ends the whole stack from the top, and
hands the destination at its bottom back.
-/

namespace Mla

open Io

class LayerWriter (W : outParam Type) (ω : Type) extends Write Error ω where
  finalize : ω → Except Error W

/-- The last layer, around the destination itself. -/
structure RawLayerWriter (W : Type) where
  inner : W

namespace RawLayerWriter

variable {W : Type} [Write Error W]

instance instWrite : Write Error (RawLayerWriter W) where
  write buf := zoom RawLayerWriter.inner (fun inner _ => ⟨inner⟩) (Write.write buf)

instance instLayerWriter : LayerWriter W (RawLayerWriter W) where
  finalize s := .ok s.inner

theorem forwards : Forwards (RawLayerWriter.inner : RawLayerWriter W → W) where
  ok hwrite := by
    obtain ⟨inner, hinner, rfl⟩ := zoom_eq_ok.mp hwrite
    exact hinner
  error hwrite := by
    obtain ⟨inner, hinner, rfl⟩ := zoom_eq_error.mp hwrite
    exact hinner

theorem stateOf_write (buf : Bytes) (s : RawLayerWriter W) :
    stateOf (Write.write buf s) = ⟨stateOf (Write.write buf s.inner)⟩ :=
  stateOf_zoom _ _ _ _

/-- The layer has been given what its destination has. -/
theorem appends {Got : W → Bytes → Prop} (h : Appends Got) :
    Appends fun (s : RawLayerWriter W) acc => Got s.inner acc :=
  forwards.appends h

theorem accepts {Got : W → Bytes → Prop} {n : ℕ} (h : Accepts n Got) :
    Accepts n fun (s : RawLayerWriter W) acc => Got s.inner acc :=
  forwards.accepts h

/-- The layer over memory has been given `acc`. -/
def Got (s : RawLayerWriter (VecWriter Error)) (acc : Bytes) : Prop := s.inner.Got acc

theorem got_nil : Got ⟨⟨[]⟩⟩ [] := rfl

theorem appends_got : Appends Got := appends VecWriter.appends

theorem accepts_got (n : ℕ) : Accepts n Got := accepts (VecWriter.accepts n)

end RawLayerWriter

end Mla
