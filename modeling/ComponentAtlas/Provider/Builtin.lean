import ComponentAtlas.Tag.Basic

/-!
# Built-in tags and attributes

The directives that web component templates know on every element, and the system tags of aura
markup with their attributes, both in the order of their names.
-/

namespace ComponentAtlas.Builtin

/-- The directives of templates with their documentation. -/
def directives : List (String × String) := [
  ("for:each",
    "Renders the element once per item of an array."),
  ("for:index",
    "Name of the current index inside a for:each iteration."),
  ("for:item",
    "Name of the current item inside a for:each iteration."),
  ("if:false",
    "Renders the element when the bound value is falsy."),
  ("if:true",
    "Renders the element when the bound value is truthy."),
  ("iterator:it",
    "Iterates an array and exposes value, index, first and last on the alias."),
  ("key",
    "Unique identifier of an item rendered by an iteration."),
  ("lwc:dom",
    "Set to \"manual\" to let JavaScript manage the element's children."),
  ("lwc:else",
    "Final branch of a preceding lwc:if."),
  ("lwc:elseif",
    "Alternative branch of a preceding lwc:if."),
  ("lwc:if",
    "Renders the element when the bound value is truthy."),
  ("lwc:ref",
    "Exposes the element on this.refs under the given name."),
  ("lwc:render-mode",
    "Set to \"light\" on the root template for light DOM rendering."),
  ("lwc:spread",
    "Spreads an object's properties onto the element.")]

/-- An attribute of a system tag: name, type and documentation. -/
structure SystemAttribute where
  name : String
  type : String
  documentation : String
  deriving DecidableEq, Repr

/-- A system tag. -/
structure SystemTag where
  identifier : String
  documentation : String
  attributes : List SystemAttribute
  deriving DecidableEq, Repr

/-- The attributes of the roots of components and applications. -/
def bundleAttributes : List SystemAttribute := [
  ⟨"access", "String", "global, public, private or internal"⟩,
  ⟨"controller", "String", "Server-side controller class"⟩,
  ⟨"description", "String", "Description of the component"⟩,
  ⟨"extends", "Component", "Component to extend"⟩,
  ⟨"extensible", "Boolean", "Whether the component can be extended"⟩,
  ⟨"implements", "String", "Comma-separated interfaces"⟩,
  ⟨"isTemplate", "Boolean", "Whether the component is a template"⟩,
  ⟨"abstract", "Boolean", "Whether the component is abstract"⟩]

/-- The system tags. -/
def systemTags : List SystemTag := [
  ⟨"aura:application", "Root of an Aura application bundle.", bundleAttributes⟩,
  ⟨"aura:attribute", "Declares an attribute of the component.", [
    ⟨"name", "String", "Name of the attribute"⟩,
    ⟨"type", "String", "Type of the attribute"⟩,
    ⟨"default", "String", "Default value"⟩,
    ⟨"required", "Boolean", "Whether a value is required"⟩,
    ⟨"access", "String", "global, public or private"⟩,
    ⟨"description", "String", "Description of the attribute"⟩]⟩,
  ⟨"aura:component", "Root of an Aura component bundle.", bundleAttributes⟩,
  ⟨"aura:dependency", "Declares a dependency that cannot be discovered from markup.", [
    ⟨"resource", "String", "Descriptor of the dependency"⟩,
    ⟨"type", "String", "Type of the dependency"⟩]⟩,
  ⟨"aura:event", "Root of an Aura event definition.", [
    ⟨"type", "String", "COMPONENT or APPLICATION"⟩,
    ⟨"access", "String", "global or public"⟩,
    ⟨"description", "String", "Description of the event"⟩,
    ⟨"extends", "String", "Event to extend"⟩]⟩,
  ⟨"aura:expression", "Renders the value of an expression.", [
    ⟨"value", "String", "Expression to render"⟩]⟩,
  ⟨"aura:handler", "Handles a component or application event.", [
    ⟨"name", "String", "Name of the component event"⟩,
    ⟨"event", "String", "Application event to handle"⟩,
    ⟨"action", "String", "Controller action to call"⟩,
    ⟨"value", "String", "Value that triggers the handler"⟩,
    ⟨"phase", "String", "capture, bubble or default"⟩,
    ⟨"includeFacets", "Boolean", "Handle events from facets"⟩]⟩,
  ⟨"aura:html", "Renders an HTML element.", [
    ⟨"tag", "String", "Element name"⟩,
    ⟨"HTMLAttributes", "Map", "Attributes of the element"⟩]⟩,
  ⟨"aura:if", "Renders its body when isTrue is truthy, else the else facet.", [
    ⟨"isTrue", "Boolean", "Condition to evaluate"⟩,
    ⟨"else", "Aura.Component[]", "Markup rendered when isTrue is falsy"⟩]⟩,
  ⟨"aura:interface", "Root of an Aura interface.", [
    ⟨"access", "String", "global or public"⟩,
    ⟨"description", "String", "Description of the interface"⟩,
    ⟨"extends", "String", "Comma-separated interfaces to extend"⟩]⟩,
  ⟨"aura:iteration", "Renders its body once per item of a collection.", [
    ⟨"items", "List", "Collection to iterate"⟩,
    ⟨"var", "String", "Name of the current item"⟩,
    ⟨"indexVar", "String", "Name of the current index"⟩,
    ⟨"start", "Integer", "Index of the first item rendered"⟩,
    ⟨"end", "Integer", "Index after the last item rendered"⟩,
    ⟨"loaded", "Boolean", "Whether the items are loaded"⟩,
    ⟨"template", "Aura.ComponentDefRef[]", "Template used for each item"⟩]⟩,
  ⟨"aura:method", "Exposes a controller action as a public method.", [
    ⟨"name", "String", "Name of the method"⟩,
    ⟨"action", "String", "Controller action to call"⟩,
    ⟨"access", "String", "global or public"⟩,
    ⟨"description", "String", "Description of the method"⟩]⟩,
  ⟨"aura:registerEvent", "Declares an event fired by the component.", [
    ⟨"name", "String", "Name of the event attribute"⟩,
    ⟨"type", "String", "Event type"⟩,
    ⟨"description", "String", "Description of the event"⟩]⟩,
  ⟨"aura:renderIf", "Deprecated. Use aura:if instead.", [
    ⟨"isTrue", "Boolean", "Condition to evaluate"⟩,
    ⟨"else", "Aura.Component[]", "Markup rendered when isTrue is falsy"⟩]⟩,
  ⟨"aura:set", "Sets the value of an inherited or facet attribute.", [
    ⟨"attribute", "String", "Name of the attribute to set"⟩,
    ⟨"value", "String", "Value to assign"⟩]⟩,
  ⟨"aura:text", "Renders plain text.", [
    ⟨"value", "String", "Text to render"⟩]⟩,
  ⟨"aura:unescapedHtml", "Renders unescaped HTML.", [
    ⟨"value", "String", "HTML to render"⟩]⟩]

/-- The attribute that a built-in name stands for. -/
def attributeOf (name : String) (type : Option String) (documentation : String) : Attribute :=
  ⟨name, name, some documentation, .property, .api, type, none⟩

end ComponentAtlas.Builtin
