import Linkage.Heap.Basic

/-! # Interned strings

    The pool remembers one handle for each text that was interned. -/

namespace Linkage

/-- The interned texts with their handles, the latest in front. -/
structure StringPool where
  entries : List (String × Handle)

namespace StringPool

/-- The pool without texts. -/
def empty : StringPool := ⟨[]⟩

/-- The handle of an interned text. -/
def find? (p : StringPool) (text : String) : Option Handle :=
  p.entries.lookup text

/-- Remember the handle of a text. -/
def insert (p : StringPool) (text : String) (handle : Handle) : StringPool :=
  ⟨(text, handle) :: p.entries⟩

/-- The handle of `text`: the remembered one, or that of a fresh object `make text`
    which is remembered from now on. `none` if there is no room for the object;
    the pool is then unchanged. -/
def intern {α : Type} (p : StringPool) (heap : Heap α) (make : String → α) (text : String) :
    Option Handle × StringPool × Heap α :=
  match p.find? text with
  | some handle => (some handle, p, heap)
  | none =>
      match heap.allocate (make text) with
      | (some handle, heap) => (some handle, p.insert text handle, heap)
      | (none, heap) => (none, p, heap)

end StringPool

end Linkage
