import Wildcard.Range

/-!
# Printing

A computation that prints as it goes and may be stopped by a range that is refused. What it has printed
by then stays printed.
-/

namespace Wildcard

structure Printing (α : Type) where
  out : Bytes
  err : Bytes
  result : Except RangeError α

namespace Printing

variable {α β γ : Type}

def print (text : Bytes) : Printing Unit := ⟨text, [], .ok ()⟩

def warn (text : Bytes) : Printing Unit := ⟨[], text, .ok ()⟩

def ofExcept (result : Except RangeError α) : Printing α := ⟨[], [], result⟩

instance : Monad Printing where
  pure a := ⟨[], [], .ok a⟩
  map f x := ⟨x.out, x.err, x.result.map f⟩
  bind x f :=
    match x.result with
    | .error e => ⟨x.out, x.err, .error e⟩
    | .ok a =>
      let y := f a
      ⟨x.out ++ y.out, x.err ++ y.err, y.result⟩

@[simp] theorem map_error (f : α → β) (out err : Bytes) (e : RangeError) :
    f <$> (⟨out, err, .error e⟩ : Printing α) = ⟨out, err, .error e⟩ := rfl

@[simp] theorem map_ok (f : α → β) (out err : Bytes) (a : α) :
    f <$> (⟨out, err, .ok a⟩ : Printing α) = ⟨out, err, .ok (f a)⟩ := rfl

@[simp] theorem error_bind (out err : Bytes) (e : RangeError) (f : α → Printing β) :
    (⟨out, err, .error e⟩ : Printing α) >>= f = ⟨out, err, .error e⟩ := rfl

@[simp] theorem ok_bind (out err : Bytes) (a : α) (f : α → Printing β) :
    (⟨out, err, .ok a⟩ : Printing α) >>= f =
      ⟨out ++ (f a).out, err ++ (f a).err, (f a).result⟩ := rfl

theorem bind_assoc (x : Printing α) (f : α → Printing β) (g : β → Printing γ) :
    x >>= f >>= g = x >>= fun a => f a >>= g := by
  obtain ⟨out, err, e | a⟩ := x
  · rfl
  · rcases hfa : f a with ⟨out', err', e | b⟩
    · simp [hfa]
    · simp [hfa]

theorem bind_pure_comp (f : α → β) (x : Printing α) : (do return f (← x)) = f <$> x := by
  obtain ⟨out, err, e | a⟩ := x
  · rfl
  · simp [pure]

instance : LawfulMonad Printing := LawfulMonad.mk' Printing
  (by rintro α ⟨out, err, e | a⟩ <;> simp) (by simp [pure, bind]) bind_assoc
  (fun _ _ => rfl) (fun _ _ => rfl) (fun _ _ => rfl) bind_pure_comp

theorem eq_of_result {x : Printing α} {result : Except RangeError α} (herr : x.err = [])
    (hresult : x.result = result) : x = ⟨x.out, [], result⟩ := by
  subst hresult
  rw [← herr]

theorem err_bind {x : Printing α} {f : α → Printing β} (hx : x.err = [])
    (hf : ∀ a, (f a).err = []) : (x >>= f).err = [] := by
  obtain ⟨out, err, e | a⟩ := x
  · exact hx
  · rw [ok_bind, hf a, List.append_nil]
    exact hx

end Printing
end Wildcard
