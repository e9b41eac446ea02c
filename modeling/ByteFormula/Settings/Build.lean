import ByteFormula.Settings.Log

/-! Registries built from settings, with what is logged on the way. -/
namespace ByteFormula

structure Logged (α : Type) where
  entries : List Log.Entry
  result : α

namespace Registry

variable {σ : Type}

def buildEmbedded : Logged (Except Error (Registry σ)) :=
  match embedded with
  | .error e => ⟨[], .error (.registry e)⟩
  | .ok registry => ⟨Log.embedded registry, .ok registry⟩

/-- The embedded functions and the base definitions. -/
def buildBase : Logged (Except Error (Registry σ)) :=
  match (buildEmbedded : Logged (Except Error (Registry σ))) with
  | ⟨entries, .error e⟩ => ⟨entries, .error e⟩
  | ⟨entries, .ok registry⟩ =>
    let entries := entries ++ Log.definitions registry baseDefinitions
    match base with
    | .error e => ⟨entries, .error e⟩
    | .ok registry =>
      ⟨entries ++ [Log.ofRegistry .info s!"Base library ready, {registry.summary}"], .ok registry⟩

def buildStart (settings : Settings) : Logged (Except Error (Registry σ)) :=
  if settings.includeBase then buildBase
  else
    let count := settings.extensions.length
    let warning := if count = 0 then []
      else [Log.ofRegistry .warn <|
        s!"Base library disabled, {count} extension file(s) may only use embedded functions"]
    match buildEmbedded with
    | ⟨entries, result⟩ => ⟨warning ++ entries, result⟩

variable {m : Type → Type} [Monad m]

def extendFiles (read : String → m (Except FileFault String)) (registry : Registry σ) :
    List String → m (Logged (Except Error (Registry σ)))
  | [] => return ⟨[], .ok registry⟩
  | path :: rest => do
    match ← read path with
    | .error e => return ⟨[], .error (.file path e)⟩
    | .ok source =>
      let entries := Log.extended registry source
      match registry.extendMany source with
      | (.error e, _) => return ⟨entries, .error e⟩
      | (.ok indices, after) =>
        let loaded := Log.ofRegistry .debug
          s!"Loaded {indices.length} definitions from `{path}`"
        let more ← extendFiles read after rest
        return ⟨entries ++ [loaded] ++ more.entries, more.result⟩

def ofSettings (read : String → m (Except FileFault String)) (settings : Settings) :
    m (Logged (Except Error (Registry σ))) := do
  match (buildStart settings : Logged (Except Error (Registry σ))) with
  | ⟨entries, .error e⟩ => return ⟨entries, .error e⟩
  | ⟨entries, .ok registry⟩ =>
    let entries := entries ++ Log.maxCallDepth registry settings.maxCallDepth
    let more ← extendFiles read (registry.setMaxCallDepth settings.maxCallDepth) settings.extensions
    match more with
    | ⟨later, .error e⟩ => return ⟨entries ++ later, .error e⟩
    | ⟨later, .ok registry⟩ =>
      let ready := Log.ofRegistry .info s!"Library configured, {registry.summary}"
      return ⟨entries ++ later ++ [ready], .ok registry⟩

end Registry
end ByteFormula
