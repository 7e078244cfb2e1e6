import Authoring.Fault

/-!
# Abbreviations of namespaces

A graph abbreviates namespaces by prefixes. A namespace has at most one prefix and a prefix stands for one
namespace. A prefix that is taken by another namespace is not given away: the new namespace gets it with the
first number behind it that makes it free. A namespace that has a prefix already takes the new one instead.
-/

namespace Authoring.Abbreviation

/-- The namespace of each prefix. -/
abbrev Table := List (String × String)

/-- The prefixes that every graph starts with. -/
def standard : Table := [
  ("owl", "http://www.w3.org/2002/07/owl#"),
  ("rdf", "http://www.w3.org/1999/02/22-rdf-syntax-ns#"),
  ("rdfs", "http://www.w3.org/2000/01/rdf-schema#"),
  ("xsd", "http://www.w3.org/2001/XMLSchema#"),
  ("xml", "http://www.w3.org/XML/1998/namespace"),
  ("brick", "https://brickschema.org/schema/Brick#"),
  ("csvw", "http://www.w3.org/ns/csvw#"),
  ("dc", "http://purl.org/dc/elements/1.1/"),
  ("dcat", "http://www.w3.org/ns/dcat#"),
  ("dcmitype", "http://purl.org/dc/dcmitype/"),
  ("dcterms", "http://purl.org/dc/terms/"),
  ("dcam", "http://purl.org/dc/dcam/"),
  ("doap", "http://usefulinc.com/ns/doap#"),
  ("foaf", "http://xmlns.com/foaf/0.1/"),
  ("geo", "http://www.opengis.net/ont/geosparql#"),
  ("odrl", "http://www.w3.org/ns/odrl/2/"),
  ("org", "http://www.w3.org/ns/org#"),
  ("prof", "http://www.w3.org/ns/dx/prof/"),
  ("prov", "http://www.w3.org/ns/prov#"),
  ("qb", "http://purl.org/linked-data/cube#"),
  ("schema", "https://schema.org/"),
  ("sh", "http://www.w3.org/ns/shacl#"),
  ("skos", "http://www.w3.org/2004/02/skos/core#"),
  ("sosa", "http://www.w3.org/ns/sosa/"),
  ("ssn", "http://www.w3.org/ns/ssn/"),
  ("time", "http://www.w3.org/2006/time#"),
  ("vann", "http://purl.org/vocab/vann/"),
  ("void", "http://rdfs.org/ns/void#"),
  ("wgs", "https://www.w3.org/2003/01/geo/wgs84_pos#")]

/-- The prefix of a namespace, if it has one. -/
def prefixOf (table : Table) (space : String) : Option String :=
  (table.find? fun e => e.2 == space).map (·.1)

/-- Gives a free prefix to a namespace in place of the one it has. -/
def assign (table : Table) (abbreviation space : String) : Table :=
  (table.filter fun e => !(e.2 == space)) ++ [(abbreviation, space)]

/-- The prefix with the first number, from a given one on, that is free or belongs to the namespace. Among as
many numbers as there are prefixes, and one more, there is one. -/
def numbered (table : Table) (stem space : String) : Nat → Nat → String
  | 0, n => stem ++ toString n
  | fuel + 1, n =>
    let candidate := stem ++ toString n
    match table.lookup candidate with
    | none => candidate
    | some s => if s == space then candidate else numbered table stem space fuel (n + 1)

/-- **Abbreviates a namespace** by a prefix, or by that prefix with a number if it is taken. -/
def bind (table : Table) (abbreviation space : String) : Except Fault Table :=
  if abbreviation.toList.contains ' ' then
    .error (.missingKey "Prefixes may not contain spaces.")
  else
    match table.lookup abbreviation with
    | none => .ok (assign table abbreviation space)
    | some s =>
      if s == space then .ok table
      else
        let stem := if abbreviation == "" then "default" else abbreviation
        let free := numbered table stem space table.length 1
        match table.lookup free with
        | some _ => .ok table
        | none => .ok (assign table free space)

end Authoring.Abbreviation
