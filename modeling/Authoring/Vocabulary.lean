/-!
# Standard vocabulary

The IRIs of RDF, RDF Schema, OWL and XML Schema that entities, annotations and graphs are made of.
-/

namespace Authoring.Vocabulary

def rdf (name : String) : String := "http://www.w3.org/1999/02/22-rdf-syntax-ns#" ++ name

def rdfs (name : String) : String := "http://www.w3.org/2000/01/rdf-schema#" ++ name

def owl (name : String) : String := "http://www.w3.org/2002/07/owl#" ++ name

def xsd (name : String) : String := "http://www.w3.org/2001/XMLSchema#" ++ name

end Authoring.Vocabulary
